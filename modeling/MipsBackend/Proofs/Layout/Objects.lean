import Mathlib.Data.List.Range
import MipsBackend.Proofs.Code.Steps
import MipsBackend.Proofs.Hierarchy.Paths
import MipsBackend.Proofs.Layout.Dispatch
import MipsBackend.Proofs.Source.WellFormed

/-!
# Objects

The words of an object grow away from its header in two directions: scalar fields downward from
-16, all other fields upward from 0.  The layout pass keeps two counters for this and hands them
down the class tree, so the fields of an object are those of all classes on the path from the root.

`FieldsTiled` is the invariant that ties the counters to the offsets.  Placing one field preserves
it (`FieldsTiled.place`), hence placing the fields of a class does, hence following a path does
(`Complete.fieldsTiled`).  `objectTiled_of_compute` reads off what the invariant means for objects
and for the code that allocates them.
-/

namespace MipsBackend

open Layout

variable {p : Program} {L : Layout} {data : Code} {c d root : ClassId} {cdecl : ClassDecl}
  {path : List ClassId} {cl cl' inherited : ClassLayout} {fields vars : List VarId} {x y : VarId}

namespace Program

/-- The fields of an object, given the classes on the path to its class. -/
def fieldsAlong (p : Program) (path : List ClassId) : List VarId :=
  path.flatMap p.instVarsOf

/-- The scalars among some variables. -/
def scalarsAmong (p : Program) (vars : List VarId) : List VarId :=
  vars.filter fun x => (p.varTy x).isScalar

/-- The variables that are no scalars. -/
def othersAmong (p : Program) (vars : List VarId) : List VarId :=
  vars.filter fun x => !(p.varTy x).isScalar

/-- A variable is a scalar with a place among the scalars, or has a place among the others. -/
theorem exists_rank (hx : x ∈ fields) :
    (∃ k : Nat, (p.varTy x).isScalar ∧ (p.scalarsAmong fields)[k]? = some x) ∨
      ∃ k : Nat, ¬ (p.varTy x).isScalar ∧ (p.othersAmong fields)[k]? = some x := by
  by_cases hscalar : (p.varTy x).isScalar
  · obtain ⟨k, hk⟩ := List.mem_iff_getElem?.1
      (List.mem_filter.2 ⟨hx, hscalar⟩ : x ∈ p.scalarsAmong fields)
    exact Or.inl ⟨k, hscalar, hk⟩
  · obtain ⟨k, hk⟩ := List.mem_iff_getElem?.1
      (List.mem_filter.2 ⟨hx, by simpa using hscalar⟩ : x ∈ p.othersAmong fields)
    exact Or.inr ⟨k, hscalar, hk⟩

theorem instVarsOf_eq (hc : p.classAt c = .ok cdecl) : p.instVarsOf c = cdecl.instVars := by
  rw [instVarsOf, hc]

end Program

namespace Layout

/-! ## Fields and counters -/

/-- The scalars among some fields take the words from -16 down, the others those from 0 up, and the
counters say how many there are of either. -/
structure FieldsTiled (p : Program) (L : Layout) (fields : List VarId) (cl : ClassLayout) :
    Prop where
  scalars : (p.scalarsAmong fields).map L.varOffset =
    (List.range cl.numScalar).map fun k => .ok (-16 - 4 * (k : Int))
  others : (p.othersAmong fields).map L.varOffset =
    (List.range cl.numReference).map fun k => .ok (4 * (k : Int))

theorem fieldsTiled_root : FieldsTiled p L [] .root :=
  ⟨rfl, rfl⟩

/-- The next field takes the next word of its region. -/
theorem FieldsTiled.place (h : FieldsTiled p L fields cl) (hx : FieldPlaced p L cl x cl') :
    FieldsTiled p L (fields ++ [x]) cl' := by
  obtain ⟨decl, hdecl, hplaced⟩ := hx
  by_cases hscalar : decl.ty.isScalar
  · rw [if_pos hscalar] at hplaced
    obtain ⟨hoffset, rfl⟩ := hplaced
    have hword : firstScalarOffset - cl.numScalar * wordSize = -16 - 4 * (cl.numScalar : Int) := by
      simp only [firstScalarOffset, wordSize]
      omega
    refine ⟨?_, ?_⟩
    · simp [Program.scalarsAmong, List.range_succ, Program.varTy_eq hdecl, hscalar,
        ← h.scalars, hoffset, hword]
    · simpa [Program.othersAmong, Program.varTy_eq hdecl, hscalar] using h.others
  · rw [if_neg hscalar] at hplaced
    obtain ⟨hoffset, rfl⟩ := hplaced
    have hword : firstReferenceOffset + cl.numReference * wordSize =
        4 * (cl.numReference : Int) := by
      simp only [firstReferenceOffset, wordSize]
      omega
    refine ⟨?_, ?_⟩
    · simpa [Program.scalarsAmong, Program.varTy_eq hdecl, hscalar] using h.scalars
    · simp [Program.othersAmong, List.range_succ, Program.varTy_eq hdecl, hscalar,
        ← h.others, hoffset, hword]

theorem FieldsTiled.placeAll (h : FieldsTiled p L fields cl)
    (hvars : Folds (FieldPlaced p L) cl vars cl') : FieldsTiled p L (fields ++ vars) cl' := by
  induction hvars generalizing fields with
  | nil => rwa [List.append_nil]
  | cons hx _ ih => simpa only [List.append_assoc, List.singleton_append] using ih (h.place hx)

theorem ClassPlaced.fieldsTiled (hplaced : ClassPlaced p L inherited c cdecl cl)
    (h : FieldsTiled p L fields inherited) : FieldsTiled p L (fields ++ cdecl.instVars) cl := by
  obtain ⟨counts, hfields, _, hcl⟩ := hplaced.exists_fields
  have htiled := h.placeAll hfields
  rw [hcl]
  exact ⟨htiled.scalars, htiled.others⟩

/-! ## Paths -/

/-- The pass has visited the classes of the program from its root, each of them once. -/
structure Rooted (p : Program) (L : Layout) (root : ClassId) : Prop where
  rootClass : p.rootClass = .ok (some root)
  reflects : (p.classTree root).Reflects p
  nodup : (p.classTree root).classes.Nodup
  mem {c : ClassId} {decl : ClassDecl} : p.classAt c = .ok decl → c ∈ (p.classTree root).classes
  exists_records : ∃ records, LaidOut p L .root (p.classTree root) records

theorem Complete.rooted (h : Complete p L data) (hroot : p.rootClass = .ok (some root)) :
    Rooted p L root := by
  obtain ⟨records, _, _, _, ⟨root', hroot', hlays, hlaid⟩ | ⟨_, hnone, _, _⟩⟩ := h.exists_code
  · obtain rfl : root = root' := Option.some.inj (Except.ok.inj (hroot.symm.trans hroot'))
    refine ⟨hroot, LaidOut.reflects hlaid, hlays.classes.nodup, fun hc => ?_, records, hlaid⟩
    obtain ⟨cl, hcl⟩ := h.exists_layout hc
    rcases hlays.classes.new (classAt_eq_ok_iff.1 hcl) with hblank | hmem
    · exact absurd (classAt_eq_ok_iff.2 hblank) classAt_blank_ne_ok
    · exact hmem
  · exact absurd (hroot.symm.trans hnone) (by simp)

theorem Complete.exists_rooted (h : Complete p L data) (hc : p.classAt c = .ok cdecl) :
    ∃ root, Rooted p L root := by
  obtain ⟨_, _, _, _, ⟨root, hroot, _⟩ | ⟨_, _, rfl, _⟩⟩ := h.exists_code
  · exact ⟨root, h.rooted hroot⟩
  · obtain ⟨cl, hcl⟩ := h.exists_layout hc
    exact absurd hcl classAt_blank_ne_ok

namespace Rooted

variable (h : Rooted p L root)
include h

/-- The root starts from nothing. -/
theorem exists_classPlaced : ∃ decl cl, p.classAt root = .ok decl ∧
    ClassPlaced p L .root root decl cl := by
  obtain ⟨decl, _, hdecl⟩ := h.reflects.exists_of_mem h.reflects.id_mem_classes
  rw [Program.id_classTree] at hdecl
  obtain ⟨_, hlaid⟩ := h.exists_records
  obtain ⟨inherited, cl, hplaced, ⟨_, rfl⟩ | ⟨s, hsub, _⟩⟩ :=
    hlaid.exists_classPlaced h.reflects (h.mem hdecl) hdecl
  · exact ⟨decl, cl, hdecl, hplaced⟩
  · obtain ⟨sdecl, hsdecl, _⟩ := id hsub
    exact absurd (Program.id_classTree p root).symm
      (h.reflects.ne_id_of_hasSubclass h.nodup (h.mem hsdecl) hsub)

/-- A class starts from the layout of the one class that lists it. -/
theorem exists_classPlaced_of_hasSubclass (hsub : p.HasSubclass c d) :
    ∃ ccl decl dcl, L.classAt c = .ok ccl ∧ p.classAt d = .ok decl ∧
      ClassPlaced p L ccl d decl dcl := by
  obtain ⟨cdecl, hc, _⟩ := id hsub
  obtain ⟨decl, _, hdecl⟩ := h.reflects.exists_of_mem (h.reflects.subclass_mem (h.mem hc) hsub)
  obtain ⟨_, hlaid⟩ := h.exists_records
  obtain ⟨inherited, dcl, hplaced, ⟨hid, _⟩ | ⟨s, hsub', hs⟩⟩ :=
    hlaid.exists_classPlaced h.reflects (h.mem hdecl) hdecl
  · exact absurd hid (h.reflects.ne_id_of_hasSubclass h.nodup (h.mem hc) hsub)
  · obtain ⟨sdecl, hsdecl, _⟩ := id hsub'
    obtain rfl := h.reflects.eq_of_hasSubclass h.nodup (h.mem hc) (h.mem hsdecl) hsub hsub'
    exact ⟨inherited, decl, dcl, hs, hdecl, hplaced⟩

/-- The fields along a path are what the counters of its last class count. -/
theorem exists_fieldsTiled (hpath : p.PathTo c path) :
    ∃ cl, L.classAt c = .ok cl ∧ FieldsTiled p L (p.fieldsAlong path) cl := by
  induction hpath with
  | root hroot =>
    obtain rfl := Option.some.inj (Except.ok.inj (h.rootClass.symm.trans hroot))
    obtain ⟨decl, cl, hdecl, hplaced⟩ := h.exists_classPlaced
    refine ⟨cl, hplaced.layout, ?_⟩
    simpa [Program.fieldsAlong, Program.instVarsOf_eq hdecl] using
      hplaced.fieldsTiled fieldsTiled_root
  | step _ hsub ih =>
    obtain ⟨ccl, hccl, htiled⟩ := ih
    obtain ⟨ccl', decl, dcl, hccl', hdecl, hplaced⟩ := h.exists_classPlaced_of_hasSubclass hsub
    obtain rfl : ccl = ccl' := Except.ok.inj (hccl.symm.trans hccl')
    refine ⟨dcl, hplaced.layout, ?_⟩
    simpa [Program.fieldsAlong, Program.instVarsOf_eq hdecl] using hplaced.fieldsTiled htiled

end Rooted

/-! ## The words of an object -/

/-- Two variables at offsets that are a word or more apart. -/
def Apart (L : Layout) (x y : VarId) : Prop :=
  ∃ a b, L.varOffset x = .ok a ∧ L.varOffset y = .ok b ∧ (a + 4 ≤ b ∨ b + 4 ≤ a)

theorem Apart.symm (h : L.Apart x y) : L.Apart y x := by
  obtain ⟨a, b, ha, hb, hab⟩ := h
  exact ⟨b, a, hb, ha, hab.symm⟩

namespace FieldsTiled

variable (h : FieldsTiled p L fields cl)
include h

theorem length_scalars : (p.scalarsAmong fields).length = cl.numScalar := by
  simpa using congrArg List.length h.scalars

theorem length_others : (p.othersAmong fields).length = cl.numReference := by
  simpa using congrArg List.length h.others

theorem scalar_offset {k : Nat} (hk : (p.scalarsAmong fields)[k]? = some x) :
    k < cl.numScalar ∧ L.varOffset x = .ok (-16 - 4 * (k : Int)) := by
  have hlt : k < cl.numScalar := h.length_scalars ▸ (List.getElem?_eq_some_iff.1 hk).1
  have hoffset := congrArg (·[k]?) h.scalars
  simp only [List.getElem?_map, hk, List.getElem?_range hlt, Option.map_some] at hoffset
  exact ⟨hlt, Option.some.inj hoffset⟩

theorem other_offset {k : Nat} (hk : (p.othersAmong fields)[k]? = some x) :
    k < cl.numReference ∧ L.varOffset x = .ok (4 * (k : Int)) := by
  have hlt : k < cl.numReference := h.length_others ▸ (List.getElem?_eq_some_iff.1 hk).1
  have hoffset := congrArg (·[k]?) h.others
  simp only [List.getElem?_map, hk, List.getElem?_range hlt, Option.map_some] at hoffset
  exact ⟨hlt, Option.some.inj hoffset⟩

/-- With the class record added the number of scalars still is a word: it is far below the number of
bytes down to the last scalar. -/
theorem numScalar_fits (fits : L.OffsetsFit) : Offset.Fits (cl.numScalar + 1) := by
  cases hcount : cl.numScalar with
  | zero => decide
  | succ k =>
    have hlt : k < (p.scalarsAmong fields).length := by
      rw [h.length_scalars, hcount]
      exact Nat.lt_succ_self k
    obtain ⟨_, hoffset⟩ := h.scalar_offset (List.getElem?_eq_getElem hlt)
    have hlow := (fits hoffset).1
    constructor <;> omega

/-- No two fields share a byte of their words. -/
theorem pairwise_apart : fields.Pairwise L.Apart := by
  have hperm : (p.scalarsAmong fields ++ p.othersAmong fields).Perm fields :=
    List.filter_append_perm _ _
  refine (hperm.pairwise_iff fun hapart => hapart.symm).1
    (List.pairwise_append.2 ⟨?_, ?_, fun x hx y hy => ?_⟩)
  · refine List.pairwise_iff_getElem.2 fun i j hi hj hij => ?_
    obtain ⟨_, ha⟩ := h.scalar_offset (List.getElem?_eq_getElem hi)
    obtain ⟨_, hb⟩ := h.scalar_offset (List.getElem?_eq_getElem hj)
    exact ⟨_, _, ha, hb, by omega⟩
  · refine List.pairwise_iff_getElem.2 fun i j hi hj hij => ?_
    obtain ⟨_, ha⟩ := h.other_offset (List.getElem?_eq_getElem hi)
    obtain ⟨_, hb⟩ := h.other_offset (List.getElem?_eq_getElem hj)
    exact ⟨_, _, ha, hb, by omega⟩
  · obtain ⟨i, hi⟩ := List.mem_iff_getElem?.1 hx
    obtain ⟨j, hj⟩ := List.mem_iff_getElem?.1 hy
    obtain ⟨_, ha⟩ := h.scalar_offset hi
    obtain ⟨_, hb⟩ := h.other_offset hj
    exact ⟨_, _, ha, hb, by omega⟩

/-- Scalars lie below the header, in as many words as there are scalars; other fields lie above
it. -/
theorem exists_offset (hx : x ∈ fields) : ∃ a, L.varOffset x = .ok a ∧
    ((p.varTy x).isScalar ∧ -12 - 4 * (cl.numScalar : Int) ≤ a ∧ a + 4 ≤ -12 ∨
      ¬ (p.varTy x).isScalar ∧ 0 ≤ a ∧ a + 4 ≤ 4 * (cl.numReference : Int)) := by
  obtain ⟨k, hscalar, hk⟩ | ⟨k, hscalar, hk⟩ := Program.exists_rank (p := p) hx
  · obtain ⟨hlt, ha⟩ := h.scalar_offset hk
    exact ⟨_, ha, Or.inl ⟨hscalar, by omega, by omega⟩⟩
  · obtain ⟨hlt, ha⟩ := h.other_offset hk
    exact ⟨_, ha, Or.inr ⟨hscalar, by omega, by omega⟩⟩

end FieldsTiled

end Layout

/-! ## Allocation -/

/-- What an allocation passes to the runtime library: the words below the object, one of which is
the class record, and the words above it. -/
def allocation (cl : ClassLayout) (record : String) : List Inst :=
  [.li .s6 (cl.numScalar + 1), .li .s7 cl.numReference, .callRoutine .newObject]
    ++ Gen.storeClassRecord record

theorem ExprTree.code_new_eq_ok_iff {info : ExprInfo} {f f' : Frame} {code : Code}
    (hcl : L.classAt c = .ok cl) (hscalars : Offset.Fits (cl.numScalar + 1))
    (hc : p.classAt c = .ok cdecl) :
    ((ExprTree.new info c).code p L).run f = .ok (code, f') ↔
      Offset.Fits (f.height + wordSize) ∧ f' = { f with height := f.height + wordSize } ∧
        code = Code.of info.span (allocation cl cdecl.name) := by
  have hname : p.recordName (.object c) = .ok cdecl.name := by
    rw [Program.recordName, hc]
    rfl
  simp only [ExprTree.code, Gen.pushed, run_bind_eq_ok_iff, run_liftM_eq_ok_iff,
    run_get_eq_ok_iff, run_set_eq_ok_iff, run_pure_eq_ok_iff, Frame.push_eq_ok_iff, Offset.add,
    Offset.checked_eq_ok_iff, hcl, hname]
  constructor
  · rintro ⟨_, _, ⟨⟨⟩, rfl⟩, _, _, ⟨⟨_, rfl⟩, rfl⟩, _, _, ⟨_, _, ⟨rfl, rfl⟩, _, _,
      ⟨⟨hfits, rfl⟩, rfl⟩, rfl⟩, _, _, ⟨⟨⟩, rfl⟩, rfl, rfl⟩
    exact ⟨hfits, rfl, rfl⟩
  · rintro ⟨hfits, rfl, rfl⟩
    exact ⟨cl, f, ⟨rfl, rfl⟩, _, f, ⟨⟨hscalars, rfl⟩, rfl⟩, ⟨⟩, _, ⟨f, f, ⟨rfl, rfl⟩, _, f,
      ⟨⟨hfits, rfl⟩, rfl⟩, rfl⟩, _, _, ⟨rfl, rfl⟩, rfl, rfl⟩

namespace Layout

/-- The objects of a class: their fields are those along the path to the class, scalars and other
fields each in words of their own. -/
structure ObjectTiled (p : Program) (L : Layout) (c : ClassId) (path : List ClassId)
    (cl : ClassLayout) : Prop where
  /-- The root, the class and the classes between them. -/
  path_iff {path' : List ClassId} : p.PathTo c path' ↔ path' = path
  layout : L.classAt c = .ok cl
  scalars : (p.scalarsAmong (p.fieldsAlong path)).map L.varOffset =
    (List.range cl.numScalar).map fun k => .ok (-16 - 4 * (k : Int))
  others : (p.othersAmong (p.fieldsAlong path)).map L.varOffset =
    (List.range cl.numReference).map fun k => .ok (4 * (k : Int))
  numScalar : cl.numScalar = (p.scalarsAmong (p.fieldsAlong path)).length
  numReference : cl.numReference = (p.othersAmong (p.fieldsAlong path)).length
  /-- No two fields share a word. -/
  apart : (p.fieldsAlong path).Pairwise L.Apart
  /-- No field lies in a word of the header. -/
  header {x : VarId} : x ∈ p.fieldsAlong path → ∃ a, L.varOffset x = .ok a ∧
    ∀ word ∈ [-12, -8, -4], a + 4 ≤ word ∨ word + 4 ≤ a
  /-- The objects of a descendant begin with the same fields in either direction, hence have them in
  the same words. -/
  inherited {d : ClassId} : Relation.ReflTransGen p.HasSubclass c d →
    ∃ path' dcl, p.PathTo d path' ∧ L.classAt d = .ok dcl ∧
      p.scalarsAmong (p.fieldsAlong path) <+: p.scalarsAmong (p.fieldsAlong path') ∧
      p.othersAmong (p.fieldsAlong path) <+: p.othersAmong (p.fieldsAlong path') ∧
      cl.numScalar ≤ dcl.numScalar ∧ cl.numReference ≤ dcl.numReference
  /-- What an object is allocated with. -/
  allocated {info : ExprInfo} {f f' : Frame} {code : Code} :
    ((ExprTree.new info c).code p L).run f = .ok (code, f') ↔
      Offset.Fits (f.height + wordSize) ∧ f' = { f with height := f.height + wordSize } ∧
        ∃ cdecl, p.classAt c = .ok cdecl ∧
          code = Code.of info.span (allocation cl cdecl.name)
  /-- The `numScalar + 1` words below -8 are the class record and the scalars; the other fields are
  the `numReference` words from 0 up. -/
  covered {x : VarId} : x ∈ p.fieldsAlong path → ∃ a, L.varOffset x = .ok a ∧
    (-8 - 4 * (cl.numScalar + 1 : Int) ≤ a ∧ a + 4 ≤ -12 ∨
      0 ≤ a ∧ a + 4 ≤ 4 * (cl.numReference : Int))

/-- In a layout that was computed the objects of every class are tiled by their fields. -/
theorem objectTiled_of_compute (h : compute p = .ok (L, data)) (hc : p.classAt c = .ok cdecl) :
    ∃ path cl, ObjectTiled p L c path cl := by
  have hcomplete := compute_eq_ok h
  obtain ⟨root, hrooted⟩ := hcomplete.exists_rooted hc
  obtain ⟨path, hpath⟩ :=
    Program.exists_pathTo hrooted.rootClass hrooted.reflects (hrooted.mem hc)
  obtain ⟨cl, hcl, htiled⟩ := hrooted.exists_fieldsTiled hpath
  have hfields : ∀ rest, p.fieldsAlong (path ++ rest) = p.fieldsAlong path ++ p.fieldsAlong rest :=
    fun rest => List.flatMap_append
  refine ⟨path, cl, {
    path_iff := ?path_iff
    layout := hcl
    scalars := htiled.scalars
    others := htiled.others
    numScalar := htiled.length_scalars.symm
    numReference := htiled.length_others.symm
    apart := htiled.pairwise_apart
    header := ?header
    inherited := ?inherited
    allocated := ?allocated
    covered := ?covered }⟩
  case path_iff =>
    refine fun {path'} => ⟨fun hpath' => ?_, fun heq => heq ▸ hpath⟩
    exact hpath'.unique hrooted.rootClass hrooted.reflects hrooted.nodup hpath
  case header =>
    intro x hx
    obtain ⟨a, ha, hrange⟩ := htiled.exists_offset hx
    refine ⟨a, ha, fun word hword => ?_⟩
    simp only [List.mem_cons, List.not_mem_nil, or_false] at hword
    omega
  case inherited =>
    intro d hdesc
    obtain ⟨rest, hpath'⟩ := hpath.exists_append hdesc
    obtain ⟨dcl, hdcl, htiled'⟩ := hrooted.exists_fieldsTiled hpath'
    have hscalars : p.scalarsAmong (p.fieldsAlong path) <+:
        p.scalarsAmong (p.fieldsAlong (path ++ rest)) := by
      rw [hfields, Program.scalarsAmong, Program.scalarsAmong, List.filter_append]
      exact List.prefix_append _ _
    have hothers : p.othersAmong (p.fieldsAlong path) <+:
        p.othersAmong (p.fieldsAlong (path ++ rest)) := by
      rw [hfields, Program.othersAmong, Program.othersAmong, List.filter_append]
      exact List.prefix_append _ _
    refine ⟨_, dcl, hpath', hdcl, hscalars, hothers, ?_, ?_⟩
    · rw [← htiled.length_scalars, ← htiled'.length_scalars]
      exact hscalars.length_le
    · rw [← htiled.length_others, ← htiled'.length_others]
      exact hothers.length_le
  case allocated =>
    intro info f f' code
    have hscalars := htiled.numScalar_fits hcomplete.offsetsFit
    rw [ExprTree.code_new_eq_ok_iff hcl hscalars hc]
    simp [hc]
  case covered =>
    intro x hx
    obtain ⟨a, ha, hrange⟩ := htiled.exists_offset hx
    exact ⟨a, ha, by omega⟩

end Layout

/-! ## A family of classes -/

/-- Vehicles: fields of both kinds on every level, and siblings that override different methods.
The subclasses of two classes are listed in the given orders. -/
def vehicles (ofVehicle ofCar : List ClassId) : Program where
  classes := #[
    ⟨"Object", .dummy, none, [⟨1⟩], [], .ofList [("hash", ⟨0⟩)]⟩,
    ⟨"Vehicle", .dummy, some ⟨0⟩, ofVehicle, [⟨0⟩, ⟨1⟩, ⟨2⟩],
      .ofList [("move", ⟨1⟩), ("stop", ⟨2⟩)]⟩,
    ⟨"Car", .dummy, some ⟨1⟩, ofCar, [⟨3⟩, ⟨4⟩], .ofList [("load", ⟨3⟩), ("move", ⟨4⟩)]⟩,
    ⟨"Bicycle", .dummy, some ⟨1⟩, [], [⟨5⟩], .ofList [("ring", ⟨5⟩), ("stop", ⟨6⟩)]⟩,
    ⟨"Truck", .dummy, some ⟨2⟩, [], [⟨6⟩, ⟨7⟩], .ofList [("load", ⟨7⟩)]⟩,
    ⟨"Taxi", .dummy, some ⟨2⟩, [], [⟨8⟩], .ofList [("hash", ⟨8⟩), ("ride", ⟨9⟩)]⟩]
  methods := #[
    ⟨"hash", .runtime, ⟨0⟩, [], .int, none, [], none⟩,
    ⟨"move", .user .dummy, ⟨1⟩, [], .void, none, [], none⟩,
    ⟨"stop", .user .dummy, ⟨1⟩, [], .void, none, [], none⟩,
    ⟨"load", .user .dummy, ⟨2⟩, [⟨9⟩], .void, none, [], none⟩,
    ⟨"move", .user .dummy, ⟨2⟩, [], .void, some ⟨1⟩, [], none⟩,
    ⟨"ring", .user .dummy, ⟨3⟩, [], .void, none, [], none⟩,
    ⟨"stop", .user .dummy, ⟨3⟩, [], .void, some ⟨2⟩, [], none⟩,
    ⟨"load", .user .dummy, ⟨4⟩, [⟨10⟩], .void, some ⟨3⟩, [], none⟩,
    ⟨"hash", .runtime, ⟨5⟩, [], .int, some ⟨0⟩, [], none⟩,
    ⟨"ride", .user .dummy, ⟨5⟩, [], .void, none, [], none⟩]
  vars := #[
    ⟨"weight", .dummy, .int, .instVar ⟨1⟩⟩,
    ⟨"owner", .dummy, .object ⟨0⟩, .instVar ⟨1⟩⟩,
    ⟨"moving", .dummy, .bool, .instVar ⟨1⟩⟩,
    ⟨"seats", .dummy, .array (.object ⟨0⟩), .instVar ⟨2⟩⟩,
    ⟨"doors", .dummy, .int, .instVar ⟨2⟩⟩,
    ⟨"gears", .dummy, .int, .instVar ⟨3⟩⟩,
    ⟨"capacity", .dummy, .int, .instVar ⟨4⟩⟩,
    ⟨"trailer", .dummy, .object ⟨4⟩, .instVar ⟨4⟩⟩,
    ⟨"guest", .dummy, .object ⟨0⟩, .instVar ⟨5⟩⟩,
    ⟨"cargo", .dummy, .object ⟨0⟩, .formal ⟨3⟩⟩,
    ⟨"cargo", .dummy, .object ⟨0⟩, .formal ⟨7⟩⟩]
  stmts := #[]
  exprs := #[]

theorem Layout.objectTiled_vehicles : ∃ L data cdecl path cl,
    compute (vehicles [⟨2⟩, ⟨3⟩] [⟨4⟩, ⟨5⟩]) = .ok (L, data) ∧
      (vehicles [⟨2⟩, ⟨3⟩] [⟨4⟩, ⟨5⟩]).classAt ⟨4⟩ = .ok cdecl ∧
      ObjectTiled (vehicles [⟨2⟩, ⟨3⟩] [⟨4⟩, ⟨5⟩]) L ⟨4⟩ path cl := by
  obtain ⟨⟨L, data⟩, h⟩ := exists_eq_ok_of_isSome
    (show (compute (vehicles [⟨2⟩, ⟨3⟩] [⟨4⟩, ⟨5⟩])).toOption.isSome by decide +kernel)
  obtain ⟨cdecl, hc⟩ := exists_eq_ok_of_isSome
    (show ((vehicles [⟨2⟩, ⟨3⟩] [⟨4⟩, ⟨5⟩]).classAt ⟨4⟩).toOption.isSome by decide)
  obtain ⟨path, cl, htiled⟩ := objectTiled_of_compute h hc
  exact ⟨L, data, cdecl, path, cl, h, hc, htiled⟩

end MipsBackend
