import Mathlib.Data.List.Nodup
import Mathlib.Logic.Relation
import MipsBackend.Proofs.Layout.Dispatch

/-!
# What a successful layout pass rules out

The layout pass is handed programs that nobody has checked: classes may be listed by two
superclasses, method tables may share methods, and an overridden method may be any method at all.
Three checks stand in the way: an entry is written once, an overriding method must find the
overridden one in the table it inherits, and no class may be left without a layout.
`Layout.Protected` says what they amount to, and `protected_of_compute` derives it from nothing but
the success of the pass.

The tables carry the argument.  `SlotsAgree` and `Keeps` are what placing one method preserves
(`MethodPlaced.slotsAgree`, `MethodPlaced.keeps`); a class is a run of such steps, and the class
tree hands its tables down from superclass to subclass.  That a table has no method twice needs no
invariant of its own, since a method has a single slot.
-/

namespace MipsBackend

variable {p : Program} {L : Layout} {data code : Code} {c d : ClassId} {cdecl : ClassDecl}
  {m o : MethodId} {decl : MethodDecl} {ml : MethodLayout} {vtable vtable' : List MethodId}
  {methods : List MethodId} {cl inherited : ClassLayout}

namespace Program

/-- The classes that the layout pass visits, with their declarations, in the order of the visit. -/
def visited (p : Program) : List (ClassId × ClassDecl) :=
  match p.rootClass with
  | .ok (some root) => (p.classTree root).nodes
  | _ => []

/-- Method `m` names `o` as the method that it overrides. -/
def Overrides (p : Program) (m o : MethodId) : Prop :=
  ∃ decl, p.methodAt m = .ok decl ∧ decl.overridden = some o

/-- `m` is `o` or reaches it by following the links to overridden methods. -/
def Replaces (p : Program) : MethodId → MethodId → Prop :=
  Relation.ReflTransGen p.Overrides

end Program

namespace Layout

/-! ## Tables -/

/-- Every method of a table stands in the slot that is recorded for it. -/
def SlotsAgree (L : Layout) (vtable : List MethodId) : Prop :=
  ∀ i m, vtable[i]? = some m → ∃ ml, L.methodAt m = .ok ml ∧ ml.slot = i + 1

/-- A later table still has every slot of an earlier one, with the same method in it or with one
that replaces it. -/
structure Keeps (p : Program) (vtable vtable' : List MethodId) : Prop where
  length_le : vtable.length ≤ vtable'.length
  replaced {i : Nat} {m : MethodId} : vtable[i]? = some m →
    ∃ m', vtable'[i]? = some m' ∧ p.Replaces m' m

/-- A table holds a method in its slot, unless another one has replaced it there. -/
def Serves (p : Program) (L : Layout) (vtable : List MethodId) (m : MethodId) : Prop :=
  ∃ ml i m', L.methodAt m = .ok ml ∧ ml.slot = i + 1 ∧ vtable[i]? = some m' ∧ p.Replaces m' m

theorem SlotsAgree.nodup (h : SlotsAgree L vtable) : vtable.Nodup := by
  refine List.nodup_iff_getElem?_ne_getElem?.2 fun i j hij hj heq => ?_
  have hi : i < vtable.length := Nat.lt_trans hij hj
  obtain ⟨ml, hml, hslot⟩ := h i vtable[i] (List.getElem?_eq_getElem hi)
  obtain ⟨ml', hml', hslot'⟩ := h j vtable[i] (by rw [← heq, List.getElem?_eq_getElem hi])
  obtain rfl : ml = ml' := Except.ok.inj (hml.symm.trans hml')
  omega

theorem Keeps.refl (vtable : List MethodId) : Keeps p vtable vtable :=
  ⟨Nat.le_refl _, fun hm => ⟨_, hm, .refl⟩⟩

theorem Keeps.trans {vtable'' : List MethodId} (h : Keeps p vtable vtable')
    (h' : Keeps p vtable' vtable'') : Keeps p vtable vtable'' := by
  refine ⟨Nat.le_trans h.length_le h'.length_le, fun hm => ?_⟩
  obtain ⟨m', hm', hreplaces⟩ := h.replaced hm
  obtain ⟨m'', hm'', hreplaces'⟩ := h'.replaced hm'
  exact ⟨m'', hm'', hreplaces'.trans hreplaces⟩

theorem Serves.mono (h : Serves p L vtable m) (hkeeps : Keeps p vtable vtable') :
    Serves p L vtable' m := by
  obtain ⟨ml, i, m', hml, hslot, hm', hreplaces⟩ := h
  obtain ⟨m'', hm'', hreplaces'⟩ := hkeeps.replaced hm'
  exact ⟨ml, i, m'', hml, hslot, hm'', hreplaces'.trans hreplaces⟩

/-! ## One method -/

/-- What placing a method does to the table: it goes into its slot, either in the place of the
method that it overrides or behind all others. -/
theorem MethodPlaced.exists_slot (h : MethodPlaced p L c vtable m vtable')
    (slots : L.SlotsPositive) : ∃ ml i, L.methodAt m = .ok ml ∧ ml.slot = i + 1 ∧
      ((∃ o, p.Overrides m o ∧ vtable[i]? = some o ∧ vtable' = vtable.set i m) ∨
        (i = vtable.length ∧ vtable' = vtable ++ [m])) := by
  obtain ⟨decl, ml, _, hdecl, hml, _, hassigned⟩ := h
  generalize hslot : ml.slot = slot at hassigned
  cases hassigned with
  | @override o oml hover homl ho =>
    have hpositive := slots homl
    exact ⟨ml, oml.slot - 1, hml, by omega, Or.inl ⟨o, ⟨decl, hdecl, hover⟩, ho, rfl⟩⟩
  | opened _ _ => exact ⟨ml, vtable.length, hml, hslot, Or.inr ⟨rfl, rfl⟩⟩

theorem MethodPlaced.slotsAgree (h : MethodPlaced p L c vtable m vtable')
    (slots : L.SlotsPositive) (hagree : SlotsAgree L vtable) : SlotsAgree L vtable' := by
  obtain ⟨ml, i, hml, hslot, ⟨o, _, ho, rfl⟩ | ⟨rfl, rfl⟩⟩ := h.exists_slot slots
  · intro j m' hm'
    by_cases hij : i = j
    · subst hij
      rw [List.getElem?_set_self (List.getElem?_eq_some_iff.1 ho).1] at hm'
      obtain rfl := Option.some.inj hm'
      exact ⟨ml, hml, hslot⟩
    · rw [List.getElem?_set_ne hij] at hm'
      exact hagree j m' hm'
  · intro j m' hm'
    rcases Nat.lt_or_ge j vtable.length with hj | hj
    · rw [List.getElem?_append_left hj] at hm'
      exact hagree j m' hm'
    · rw [List.getElem?_append_right hj, List.getElem?_singleton] at hm'
      split at hm'
      · obtain rfl := Option.some.inj hm'
        exact ⟨ml, hml, by omega⟩
      · exact absurd hm' (by simp)

theorem MethodPlaced.keeps (h : MethodPlaced p L c vtable m vtable') (slots : L.SlotsPositive) :
    Keeps p vtable vtable' := by
  obtain ⟨_, i, _, _, ⟨o, hover, ho, rfl⟩ | ⟨_, rfl⟩⟩ := h.exists_slot slots
  · refine ⟨by simp, fun {j m'} hm' => ?_⟩
    by_cases hij : i = j
    · subst hij
      obtain rfl : o = m' := Option.some.inj (ho.symm.trans hm')
      exact ⟨m, List.getElem?_set_self (List.getElem?_eq_some_iff.1 ho).1, .single hover⟩
    · exact ⟨m', by rwa [List.getElem?_set_ne hij], .refl⟩
  · refine ⟨by simp, fun {j m'} hm' => ⟨m', ?_, .refl⟩⟩
    rwa [List.getElem?_append_left (List.getElem?_eq_some_iff.1 hm').1]

theorem MethodPlaced.serves (h : MethodPlaced p L c vtable m vtable') (slots : L.SlotsPositive) :
    Serves p L vtable' m := by
  obtain ⟨ml, i, hml, hslot, ⟨o, _, ho, rfl⟩ | ⟨rfl, rfl⟩⟩ := h.exists_slot slots
  · exact ⟨ml, i, m, hml, hslot,
      List.getElem?_set_self (List.getElem?_eq_some_iff.1 ho).1, .refl⟩
  · exact ⟨ml, _, m, hml, hslot, by simp, .refl⟩

/-! ## One class -/

/-- All methods of a class are placed, one after the other. -/
theorem placed_of_folds (h : Folds (MethodPlaced p L c) vtable methods vtable')
    (slots : L.SlotsPositive) (hagree : SlotsAgree L vtable) :
    SlotsAgree L vtable' ∧ Keeps p vtable vtable' ∧ ∀ m ∈ methods, Serves p L vtable' m := by
  induction h with
  | nil => exact ⟨hagree, .refl _, by simp⟩
  | cons hfirst _ ih =>
    obtain ⟨hagree', hkeeps, hserves⟩ := ih (hfirst.slotsAgree slots hagree)
    refine ⟨hagree', (hfirst.keeps slots).trans hkeeps, fun m hm => ?_⟩
    rcases List.mem_cons.1 hm with rfl | hm
    · exact (hfirst.serves slots).mono hkeeps
    · exact hserves m hm

theorem ClassPlaced.protects (h : ClassPlaced p L inherited c cdecl cl) (slots : L.SlotsPositive)
    (hagree : SlotsAgree L inherited.vtable) : SlotsAgree L cl.vtable ∧
      Keeps p inherited.vtable cl.vtable ∧ ∀ m ∈ cdecl.methods.methods, Serves p L cl.vtable m := by
  obtain ⟨fields, hfields, hmethods, _⟩ := h.exists_fields
  rw [FieldPlaced.vtable_eq hfields] at hmethods
  exact placed_of_folds hmethods slots hagree

/-! ## All classes -/

/-- Every class of a tree starts from a table whose methods stand in their slots. -/
theorem LaidOut.exists_inherited {tree : ClassTree} (h : LaidOut p L inherited tree code)
    (slots : L.SlotsPositive) (hagree : SlotsAgree L inherited.vtable)
    (hmem : (c, cdecl) ∈ tree.nodes) : ∃ inherited' cl, ClassPlaced p L inherited' c cdecl cl ∧
      SlotsAgree L inherited'.vtable := by
  induction tree generalizing inherited code with
  | broken id fault => exact h.elim
  | node id decl subclasses ih =>
    obtain ⟨cl, _, _, _, hplaced, _, hall, _⟩ := h
    rcases List.mem_cons.1 hmem with heq | hmem
    · obtain ⟨rfl, rfl⟩ := Prod.mk.inj heq
      exact ⟨inherited, cl, hplaced, hagree⟩
    · obtain ⟨tree, htree, hnode⟩ := ClassTree.mem_nodesAll.1 hmem
      obtain ⟨_, _, _, hlaid, _⟩ := hall.exists_of_mem htree
      exact ih tree htree hlaid (hplaced.protects slots hagree).1 hnode

/-- A class that another one lists is laid out from the layout of that class. -/
theorem LaidOut.exists_classPlaced_of_hasSubclass {tree : ClassTree}
    (h : LaidOut p L inherited tree code) (hreflects : tree.Reflects p) (hmem : c ∈ tree.classes)
    (hsub : p.HasSubclass c d) : ∃ ccl ddecl dcl, L.classAt c = .ok ccl ∧
      ClassPlaced p L ccl d ddecl dcl := by
  induction tree generalizing inherited code with
  | broken id fault => exact h.elim
  | node id decl subclasses ih =>
    obtain ⟨hdecl, hids, hwhole⟩ := hreflects
    obtain ⟨cl, _, _, _, hplaced, _, hall, _⟩ := h
    rcases ClassTree.mem_classes_node.1 hmem with rfl | ⟨tree, htree, hc⟩
    · obtain ⟨decl', hdecl', hd⟩ := hsub
      obtain rfl : decl = decl' := Except.ok.inj (hdecl.symm.trans hdecl')
      rw [hids] at hd
      obtain ⟨tree, htree, rfl⟩ := List.mem_map.1 hd
      obtain ⟨_, _, _, hlaid, _⟩ := hall.exists_of_mem htree
      cases htree' : tree () with
      | broken id fault =>
        rw [htree'] at hlaid
        exact hlaid.elim
      | node id ddecl _ =>
        rw [htree'] at hlaid
        obtain ⟨dcl, _, _, _, hdplaced, _⟩ := hlaid
        exact ⟨cl, ddecl, dcl, hplaced.layout, hdplaced⟩
    · obtain ⟨_, _, _, hlaid, _⟩ := hall.exists_of_mem htree
      exact ih tree htree hlaid (ClassTree.reflectsAll_iff.1 hwhole tree htree) hc

/-- The walk of a successful pass: the visited classes are those of one tree, laid out from
nothing. -/
theorem Complete.visited_eq (h : Complete p L data) :
    LaysOutNodes p p.visited (blank p) L ∧
      (p.visited = [] ∨ ∃ tree records, p.visited = tree.nodes ∧ tree.Reflects p ∧
        LaidOut p L .root tree records) := by
  obtain ⟨records, _, _, _, ⟨root, hroot, hlays, hlaid⟩ | ⟨_, hroot, rfl, _⟩⟩ := h.exists_code
  · have hvisited : p.visited = (p.classTree root).nodes := by
      rw [Program.visited, hroot]
    rw [hvisited]
    exact ⟨hlays, Or.inr ⟨_, records, rfl, hlaid.reflects, hlaid⟩⟩
  · have hvisited : p.visited = [] := by
      rw [Program.visited, hroot]
    rw [hvisited]
    exact ⟨.refl _, Or.inl rfl⟩

/-- Exactly the classes of the program are visited. -/
theorem Complete.mem_visited_iff (h : Complete p L data) :
    (c, cdecl) ∈ p.visited ↔ p.classAt c = .ok cdecl := by
  obtain ⟨hlays, hvisited⟩ := h.visited_eq
  have hdecl : ∀ {decl}, (c, decl) ∈ p.visited → p.classAt c = .ok decl := by
    intro decl hmem
    rcases hvisited with hnone | ⟨tree, _, htree, hreflects, _⟩
    · simp [hnone] at hmem
    · exact hreflects.classAt_of_mem (htree ▸ hmem)
  refine ⟨hdecl, fun hc => ?_⟩
  obtain ⟨cl, hcl⟩ := h.exists_layout hc
  rcases hlays.classes.new (classAt_eq_ok_iff.1 hcl) with hblank | hmem
  · exact absurd (classAt_eq_ok_iff.2 hblank) classAt_blank_ne_ok
  · obtain ⟨⟨_, decl⟩, hnode, rfl⟩ := List.mem_map.1 hmem
    obtain rfl : decl = cdecl := Except.ok.inj ((hdecl hnode).symm.trans hc)
    exact hnode

/-- Every class of the program was laid out from a table whose methods stand in their slots. -/
theorem Complete.exists_inherited (h : Complete p L data) (hc : p.classAt c = .ok cdecl) :
    ∃ inherited cl, ClassPlaced p L inherited c cdecl cl ∧ SlotsAgree L inherited.vtable := by
  have hmem := h.mem_visited_iff.2 hc
  obtain ⟨_, hnone | ⟨tree, records, htree, _, hlaid⟩⟩ := h.visited_eq
  · simp [hnone] at hmem
  · exact hlaid.exists_inherited h.slots (by simp [SlotsAgree, ClassLayout.root]) (htree ▸ hmem)

/-- Classes have layouts only if they are classes of the program. -/
theorem Complete.exists_decl (h : Complete p L data) (hcl : L.classAt c = .ok cl) :
    ∃ decl, p.classAt c = .ok decl := by
  obtain ⟨hlays, _⟩ := h.visited_eq
  rcases hlays.classes.new (classAt_eq_ok_iff.1 hcl) with hblank | hmem
  · exact absurd (classAt_eq_ok_iff.2 hblank) classAt_blank_ne_ok
  · obtain ⟨⟨_, decl⟩, hnode, rfl⟩ := List.mem_map.1 hmem
    exact ⟨decl, h.mem_visited_iff.1 hnode⟩

/-- What the checks of the layout pass amount to, whatever program it was given. -/
structure Protected (p : Program) (L : Layout) : Prop where
  /-- The pass visits the classes of the program and no others. -/
  visited {c : ClassId} {decl : ClassDecl} : (c, decl) ∈ p.visited ↔ p.classAt c = .ok decl
  /-- Every class has a layout. -/
  classLayout {c : ClassId} {decl : ClassDecl} :
    p.classAt c = .ok decl → ∃ cl, L.classAt c = .ok cl
  /-- No class is visited twice. -/
  classes_nodup : (p.visited.map Prod.fst).Nodup
  /-- No method is listed twice. -/
  methods_nodup : (methodsOf p.visited).Nodup
  /-- No variable is listed twice, be it as an instance variable or as a formal parameter. -/
  vars_nodup : (varsOf p p.visited).Nodup
  /-- Every listed method exists and has a slot behind the superclass word. -/
  methodLayout {c : ClassId} {cdecl : ClassDecl} {m : MethodId} : p.classAt c = .ok cdecl →
    m ∈ cdecl.methods.methods →
    ∃ decl ml, p.methodAt m = .ok decl ∧ L.methodAt m = .ok ml ∧ 1 ≤ ml.slot
  /-- No table has a method twice. -/
  table_nodup {c : ClassId} {cl : ClassLayout} : L.classAt c = .ok cl → cl.vtable.Nodup
  /-- A method stands in no slot but its own. -/
  table_slot {c : ClassId} {cl : ClassLayout} {slot : Nat} {m : MethodId} :
    L.classAt c = .ok cl → cl.slot? slot = some m →
    ∃ ml, L.methodAt m = .ok ml ∧ ml.slot = slot
  /-- A subclass has all slots of the superclass, each with the same method or with one that
  replaces it. -/
  table_inherits {c d : ClassId} {cl dcl : ClassLayout} : p.HasSubclass c d →
    L.classAt c = .ok cl → L.classAt d = .ok dcl → cl.vtable.length ≤ dcl.vtable.length ∧
    ∀ slot m, cl.slot? slot = some m → ∃ m', dcl.slot? slot = some m' ∧ p.Replaces m' m
  /-- Both classes of such a link have layouts. -/
  subclassLayout {c d : ClassId} : p.HasSubclass c d →
    ∃ cl dcl, L.classAt c = .ok cl ∧ L.classAt d = .ok dcl
  /-- An overriding method has the slot of the overridden one. -/
  overridden_slot {m o : MethodId} {decl : MethodDecl} {ml : MethodLayout} :
    L.methodAt m = .ok ml → p.methodAt m = .ok decl → decl.overridden = some o →
    ∃ oml, L.methodAt o = .ok oml ∧ oml.slot = ml.slot
  /-- A class's own method stands in its slot of the class's table, or has been replaced there. -/
  table_own {c : ClassId} {cdecl : ClassDecl} {cl : ClassLayout} {m : MethodId} :
    p.classAt c = .ok cdecl → L.classAt c = .ok cl → m ∈ cdecl.methods.methods →
    ∃ ml m', L.methodAt m = .ok ml ∧ cl.slot? ml.slot = some m' ∧ p.Replaces m' m

/-- A pass that succeeds protects its result. -/
theorem protected_of_compute (h : compute p = .ok (L, data)) : Protected p L := by
  have hcomplete := compute_eq_ok h
  have slots : L.SlotsPositive := hcomplete.slots
  obtain ⟨hlays, hvisited⟩ := hcomplete.visited_eq
  -- What is known of a class: its own table and where it came from.
  have hclass : ∀ {c cdecl cl}, p.classAt c = .ok cdecl → L.classAt c = .ok cl →
      SlotsAgree L cl.vtable ∧ ∀ m ∈ cdecl.methods.methods, Serves p L cl.vtable m := by
    intro c cdecl cl hc hcl
    obtain ⟨inherited, cl', hplaced, hagree⟩ := hcomplete.exists_inherited hc
    obtain rfl : cl = cl' := Except.ok.inj (hcl.symm.trans hplaced.layout)
    obtain ⟨hagree', _, hserves⟩ := hplaced.protects slots hagree
    exact ⟨hagree', hserves⟩
  have htable : ∀ {c cl}, L.classAt c = .ok cl → SlotsAgree L cl.vtable := by
    intro c cl hcl
    obtain ⟨decl, hc⟩ := hcomplete.exists_decl hcl
    exact (hclass hc hcl).1
  have hsubclass : ∀ {c d}, p.HasSubclass c d → ∃ cl ddecl dcl, L.classAt c = .ok cl ∧
      ClassPlaced p L cl d ddecl dcl := by
    intro c d hsub
    obtain ⟨decl, hc, _⟩ := id hsub
    have hmem := hcomplete.mem_visited_iff.2 hc
    rcases hvisited with hnone | ⟨tree, records, htree, hreflects, hlaid⟩
    · simp [hnone] at hmem
    · exact hlaid.exists_classPlaced_of_hasSubclass hreflects
        (List.mem_map_of_mem (htree ▸ hmem)) hsub
  constructor
  case visited => exact hcomplete.mem_visited_iff
  case classLayout => exact hcomplete.exists_layout
  case classes_nodup => exact hlays.classes.nodup
  case methods_nodup => exact hlays.methods.nodup
  case vars_nodup => exact hlays.vars.nodup
  case methodLayout =>
    intro c cdecl m hc hm
    obtain ⟨_, _, hplaced, _⟩ := hcomplete.exists_inherited hc
    obtain ⟨_, _, hmethods, _⟩ := hplaced.exists_fields
    obtain ⟨_, _, decl, ml, _, hdecl, hml, _⟩ := hmethods.exists_of_mem hm
    exact ⟨decl, ml, hdecl, hml, slots hml⟩
  case table_nodup => exact fun hcl => (htable hcl).nodup
  case table_slot =>
    intro c cl slot m hcl hm
    cases slot with
    | zero => simp [ClassLayout.slot?] at hm
    | succ i => exact htable hcl i m hm
  case table_inherits =>
    intro c d cl dcl hsub hcl hdcl
    obtain ⟨cl', _, dcl', hcl', hplaced⟩ := hsubclass hsub
    obtain rfl : cl = cl' := Except.ok.inj (hcl.symm.trans hcl')
    obtain rfl : dcl = dcl' := Except.ok.inj (hdcl.symm.trans hplaced.layout)
    obtain ⟨_, hkeeps, _⟩ := hplaced.protects slots (htable hcl)
    refine ⟨hkeeps.length_le, fun slot m hm => ?_⟩
    cases slot with
    | zero => simp [ClassLayout.slot?] at hm
    | succ i => exact hkeeps.replaced hm
  case subclassLayout =>
    intro c d hsub
    obtain ⟨cl, _, dcl, hcl, hplaced⟩ := hsubclass hsub
    exact ⟨cl, dcl, hcl, hplaced.layout⟩
  case overridden_slot =>
    intro m o decl ml hml hdecl hover
    obtain ⟨c, vtable, vtable', decl', ml', _, hdecl', hml', _, hassigned⟩ :=
      hcomplete.exists_methodPlaced hml
    obtain rfl : decl = decl' := Except.ok.inj (hdecl.symm.trans hdecl')
    obtain rfl : ml = ml' := Except.ok.inj (hml.symm.trans hml')
    generalize hslot : ml.slot = slot at hassigned
    cases hassigned with
    | @override o' oml hover' homl _ =>
      obtain rfl : o = o' := Option.some.inj (hover.symm.trans hover')
      exact ⟨oml, homl, rfl⟩
    | opened hnone _ => simp [hnone] at hover
  case table_own =>
    intro c cdecl cl m hc hcl hm
    obtain ⟨ml, i, m', hml, hslot, hm', hreplaces⟩ := (hclass hc hcl).2 m hm
    refine ⟨ml, m', hml, ?_, hreplaces⟩
    rw [hslot]
    exact hm'

theorem protected_shapes : ∃ L data, compute shapes = .ok (L, data) ∧ Protected shapes L := by
  obtain ⟨L, data, h⟩ := exists_compute_shapes
  exact ⟨L, data, h, protected_of_compute h⟩

end Layout

end MipsBackend
