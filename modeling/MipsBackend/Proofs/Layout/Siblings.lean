import MipsBackend.Proofs.Hierarchy.Reordering
import MipsBackend.Proofs.Layout.Objects
import MipsBackend.Proofs.Layout.Replay

/-!
# Siblings do not influence each other

Classes with the same superclass all start from the layout of that class.  The pass visits one after
the other and records entries that later ones could read, and it could fail for lack of an entry.
Yet the order in which siblings are listed makes no difference to the layout, and none to whether
there is one.

The argument goes by the rules and not by two runs of the pass.  No rule mentions a sibling, so a
layout that obeys them for one order obeys them for any other (`LaidOut.reorder`), with code that
is put together in another order.  By `classRecords_of_laidOut` the pass then finds that layout.

`classLines` are the lines that a class itself contributes to the data segment, and
`ClassTree.assemble` puts them together.  `Rearranged` says with these that two data segments differ
in the order of records only.
-/

namespace MipsBackend

variable {p p' : Program} {L : Layout} {c : ClassId} {m : MethodId} {x : VarId} {decl : ClassDecl}
  {cl cl' inherited : ClassLayout} {code data : Code} {vtable vtable' : List MethodId}

/-! ## Data segments -/

namespace ClassTree

mutual

/-- The lines of a tree of classes.  Each class encloses its descendants in lines of its own. -/
def assemble (own : ClassId → Except Fault (Code × Code)) : ClassTree → Except Fault Code
  | .broken _ fault => .error fault
  | .node id _ subclasses => do
    let (before, after) ← own id
    return before ++ (← assembleAll own subclasses) ++ after

/-- The lines of some trees, one tree after the other. -/
def assembleAll (own : ClassId → Except Fault (Code × Code)) :
    List (Unit → ClassTree) → Except Fault Code
  | [] => .ok []
  | tree :: trees => do return (← assemble own (tree ())) ++ (← assembleAll own trees)

end

theorem assembleAll_eq_ok_iff {own : ClassId → Except Fault (Code × Code)}
    {trees : List (Unit → ClassTree)} : assembleAll own trees = .ok code ↔ ∃ codes,
      List.Forall₂ (fun tree code => (tree ()).assemble own = .ok code) trees codes ∧
        code = codes.flatten := by
  induction trees generalizing code with
  | nil => simp [assembleAll, eq_comm]
  | cons tree trees ih =>
    simp only [assembleAll, bind_eq_ok_iff, pure_eq_ok_iff, ih, List.forall₂_cons_left_iff]
    constructor
    · rintro ⟨first, hfirst, _, ⟨codes, hcodes, rfl⟩, rfl⟩
      exact ⟨first :: codes, ⟨first, codes, hfirst, hcodes, rfl⟩, rfl⟩
    · rintro ⟨_, ⟨first, codes, hfirst, hcodes, rfl⟩, rfl⟩
      exact ⟨first, hfirst, _, ⟨codes, hcodes, rfl⟩, rfl⟩

/-- The lines of a tree hold those of every class. -/
theorem exists_infix_assemble {own : ClassId → Except Fault (Code × Code)} {t : ClassTree}
    (h : t.assemble own = .ok code) (hc : c ∈ t.classes) :
    ∃ before after, own c = .ok (before, after) ∧ before <:+: code := by
  induction t generalizing code with
  | broken id fault => simp [assemble] at h
  | node id decl subclasses ih =>
    simp only [assemble, bind_eq_ok_iff, pure_eq_ok_iff, assembleAll_eq_ok_iff] at h
    obtain ⟨⟨before, after⟩, hown, _, ⟨codes, hcodes, rfl⟩, rfl⟩ := h
    rcases mem_classes_node.1 hc with rfl | ⟨tree, htree, hc⟩
    · refine ⟨before, after, hown, ?_⟩
      rw [List.append_assoc]
      exact (List.prefix_append _ _).isInfix
    · obtain ⟨first, hmem, hfirst⟩ := exists_of_mem_forall₂ hcodes.flip htree
      obtain ⟨before', after', hown', hheld⟩ := ih tree htree hfirst hc
      exact ⟨before', after', hown',
        (hheld.trans (List.infix_of_mem_flatten hmem)).trans ⟨before, after, rfl⟩⟩

end ClassTree

namespace Layout

/-- The lines that a class itself contributes to the data segment: its record, and what follows the
records of its descendants. -/
def classLines (p : Program) (L : Layout) (c : ClassId) : Except Fault (Code × Code) := do
  let decl ← p.classAt c
  let cl ← L.classAt c
  let body ← recordBody p decl.superclass cl
  let arrays ← (if decl.superclass.isNone then arrayRecords p (some c) cl else .ok [])
  return (Code.of decl.span (.label (.classStart decl.name) :: body),
    Code.of decl.span (arrays ++ [.label (.classEnd decl.name)]))

theorem laidOutAll_iff {trees : List (Unit → ClassTree)} : LaidOutAll p L cl trees code ↔ ∃ codes,
    List.Forall₂ (fun tree code => LaidOut p L cl (tree ()) code) trees codes ∧
      code = codes.flatten := by
  induction trees generalizing code with
  | nil => simp [LaidOutAll]
  | cons tree trees ih =>
    simp only [LaidOutAll, ih, List.forall₂_cons_left_iff]
    constructor
    · rintro ⟨first, _, hfirst, ⟨codes, hcodes, rfl⟩, rfl⟩
      exact ⟨first :: codes, ⟨first, codes, hfirst, hcodes, rfl⟩, rfl⟩
    · rintro ⟨_, ⟨first, codes, hfirst, hcodes, rfl⟩, rfl⟩
      exact ⟨first, _, hfirst, ⟨codes, hcodes, rfl⟩, rfl⟩

/-- The records of a tree are the lines of its classes. -/
theorem LaidOut.assemble_eq {t : ClassTree} (h : LaidOut p L inherited t code)
    (hreflects : t.Reflects p) : t.assemble (classLines p L) = .ok code := by
  induction t generalizing inherited code with
  | broken id fault => exact h.elim
  | node id decl subclasses ih =>
    obtain ⟨cl, body, descendants, arrays, hplaced, hbody, hall, harrays, rfl⟩ := h
    obtain ⟨hdecl, _, hwhole⟩ := hreflects
    have hlines : classLines p L id =
        .ok (Code.of decl.span (.label (.classStart decl.name) :: body),
          Code.of decl.span (arrays ++ [.label (.classEnd decl.name)])) := by
      simp only [classLines, bind_eq_ok_iff, pure_eq_ok_iff]
      exact ⟨decl, hdecl, cl, hplaced.layout, body, hbody, arrays, harrays, rfl⟩
    obtain ⟨codes, hcodes, rfl⟩ := laidOutAll_iff.1 hall
    have hdescendants : ClassTree.assembleAll (classLines p L) subclasses = .ok codes.flatten := by
      refine ClassTree.assembleAll_eq_ok_iff.2 ⟨codes, ?_, rfl⟩
      have hone : ∀ tree ∈ subclasses, ∀ code, LaidOut p L cl (tree ()) code →
          (tree ()).assemble (classLines p L) = .ok code := fun tree htree _ hlaid =>
        ih tree htree hlaid (ClassTree.reflectsAll_iff.1 hwhole tree htree)
      exact ((List.forall₂_and_left _ _).2 ⟨hone, hcodes⟩).imp fun _ _ h => h.1 _ h.2
    simp only [ClassTree.assemble, bind_eq_ok_iff, pure_eq_ok_iff]
    exact ⟨_, hlines, _, hdescendants, rfl⟩

/-- A class contributes its label, the superclass word and the labels of its methods first. -/
theorem exists_words_of_classLines {before after : Code}
    (h : classLines p L c = .ok (before, after)) (hc : p.classAt c = .ok decl) :
    ∃ cl words, L.classAt c = .ok cl ∧ RecordWords p decl.superclass cl words ∧
      before = Code.of decl.span (.label (.classStart decl.name) :: words.map .word) := by
  simp only [classLines, bind_eq_ok_iff, pure_eq_ok_iff, Prod.mk.injEq] at h
  obtain ⟨decl', hc', cl, hcl, body, hbody, _, _, rfl, _⟩ := h
  obtain rfl : decl' = decl := Except.ok.inj (hc'.symm.trans hc)
  obtain ⟨words, rfl, hwords⟩ := exists_recordWords hbody
  exact ⟨cl, words, hcl, hwords, rfl⟩

/-! ## The rules do not mention siblings -/

section Reordered

variable (h : p.SiblingsReordered p')
include h

theorem recordBody_reordered (superclass : Option ClassId) (cl : ClassLayout) :
    recordBody p' superclass cl = recordBody p superclass cl := by
  unfold recordBody
  simp only [h.methodLabel_eq]
  cases superclass with
  | none => rfl
  | some s => exact h.classAt_bind_eq fun _ _ => rfl

theorem arrayRecords_reordered (root : Option ClassId) (cl : ClassLayout) :
    arrayRecords p' root cl = arrayRecords p root cl := by
  rw [arrayRecords, arrayRecords, recordBody_reordered h]

theorem classLines_reordered (c : ClassId) : classLines p' L c = classLines p L c := by
  simp only [classLines, recordBody_reordered h, arrayRecords_reordered h]
  exact h.classAt_bind_eq fun _ _ => rfl

theorem stringLiterals_reordered : stringLiterals p' = stringLiterals p := by
  unfold stringLiterals
  simp only [h.stringClass_eq, h.stringLiterals_eq]
  cases p.stringClass with
  | none => rfl
  | some c => exact h.classAt_bind_eq fun _ _ => rfl

theorem FieldPlaced.reorder (hplaced : FieldPlaced p L cl x cl') : FieldPlaced p' L cl x cl' := by
  unfold FieldPlaced at hplaced ⊢
  rwa [h.varAt_eq]

theorem MethodPlaced.reorder (hplaced : MethodPlaced p L c vtable m vtable') :
    MethodPlaced p' L c vtable m vtable' := by
  obtain ⟨decl, ml, tys, hdecl, hml, hformals, hassigned⟩ := hplaced
  have htypes : VarTypes p' decl.formals tys := by
    unfold VarTypes
    simp only [h.varAt_eq]
    exact hformals.types
  have hslot : SlotAssigned p' L c m decl vtable ml.slot vtable' := by
    generalize ml.slot = slot at hassigned ⊢
    cases hassigned with
    | override hover hml hholder => exact .override hover hml hholder
    | opened hover hinherited =>
      exact .opened hover (by rw [h.inheritedMethod_eq, hinherited])
  exact ⟨decl, ml, tys, by rw [h.methodAt_eq, hdecl], hml,
    ⟨htypes, hformals.receiver, hformals.fits, hformals.offset⟩, hslot⟩

theorem ClassPlaced.reorder {subclasses : List ClassId}
    (hplaced : ClassPlaced p L inherited c decl cl) :
    ClassPlaced p' L inherited c { decl with subclasses } cl := by
  obtain ⟨fields, hfields, hmethods, hcl⟩ := hplaced.exists_fields
  exact ⟨hplaced.layout, fields, hfields.imp (FieldPlaced.reorder h),
    hmethods.imp (MethodPlaced.reorder h), hcl⟩

/-- A layout that obeys the rules does so for any order of siblings.  The records of siblings change
places. -/
theorem LaidOut.reorder {bound : Nat} (hlaid : LaidOut p L inherited (p.unfoldClass bound c) code) :
    ∃ code', LaidOut p' L inherited (p'.unfoldClass bound c) code' ∧ code'.Perm code := by
  induction bound generalizing c inherited code with
  | zero =>
    obtain ⟨fault, ht, _⟩ | ⟨_, _, _, hbound, _⟩ := h.unfoldClass_cases 0 c
    · rw [ht] at hlaid
      exact hlaid.elim
    · cases hbound
  | succ bound ih =>
    obtain ⟨fault, ht, _⟩ | ⟨_, decl, subclasses, hbound, hperm, ht, ht'⟩ :=
      h.unfoldClass_cases (bound + 1) c
    · rw [ht] at hlaid
      exact hlaid.elim
    · obtain rfl := Nat.succ.inj hbound
      rw [ht] at hlaid
      obtain ⟨cl, body, _, arrays, hplaced, hbody, hall, harrays, rfl⟩ := hlaid
      obtain ⟨codes, hcodes, rfl⟩ := laidOutAll_iff.1 hall
      rw [List.forall₂_map_left_iff] at hcodes
      -- First the order of siblings changes, then each of their trees.
      obtain ⟨codes₁, hcodes₁, hperm₁⟩ := List.perm_comp_forall₂ hperm.symm hcodes
      obtain ⟨codes₂, hcodes₂, hperm₂⟩ : ∃ codes₂, List.Forall₂ (fun s code =>
          LaidOut p' L cl (p'.unfoldClass bound s) code) subclasses codes₂ ∧
            codes₂.flatten.Perm codes₁.flatten := by
        clear hperm hperm₁ ht'
        induction hcodes₁ with
        | nil => exact ⟨[], .nil, .refl _⟩
        | cons hfirst _ ihs =>
          obtain ⟨first, hfirst, hpermFirst⟩ := ih hfirst
          obtain ⟨rest, hrest, hpermRest⟩ := ihs
          exact ⟨first :: rest, .cons hfirst hrest, hpermFirst.append hpermRest⟩
      have hdescendants := hperm₂.trans hperm₁.flatten
      rw [ht']
      refine ⟨_, ⟨cl, body, codes₂.flatten, arrays, hplaced.reorder h, ?_, ?_, ?_, rfl⟩, ?_⟩
      · rw [recordBody_reordered h, hbody]
      · exact laidOutAll_iff.2 ⟨codes₂, List.forall₂_map_left_iff.2 hcodes₂, rfl⟩
      · rw [arrayRecords_reordered h, harrays]
      · exact (hdescendants.append_left _).append_right _

/-- The entries of the class tree are the same. -/
theorem laysOutNodes_reordered {bound : Nat} {l l' : Layout}
    (hlays : LaysOutNodes p (p.unfoldClass bound c).nodes l l') :
    LaysOutNodes p' (p'.unfoldClass bound c).nodes l l' := by
  have hformals : formalsOf p' = formalsOf p := by
    funext m
    rw [formalsOf, formalsOf, h.methodAt_eq]
  refine LaysOut.perm hlays ?_ (h.perm_flatMap_nodes fun _ _ _ => rfl) ?_
  · rw [List.map_eq_flatMap, List.map_eq_flatMap]
    exact h.perm_flatMap_nodes fun _ _ _ => rfl
  · rw [varsOf, varsOf, hformals]
    exact h.perm_flatMap_nodes fun _ _ _ => rfl

theorem blank_reordered : blank p' = blank p := by
  rw [blank, blank, h.size_classes, h.others]

end Reordered

/-! ## Siblings are independent -/

/-- Two data segments for one layout differ in the order of records only. -/
structure Rearranged (p p' : Program) (L : Layout) (data data' : Code) : Prop where
  /-- Each class contributes the same lines. -/
  lines {c : ClassId} : classLines p' L c = classLines p L c
  /-- The record of a class stands in both: its label, superclass word and dispatch table. -/
  exists_record {c : ClassId} {decl : ClassDecl} : p.classAt c = .ok decl →
    ∃ cl words after, L.classAt c = .ok cl ∧ RecordWords p decl.superclass cl words ∧
      classLines p L c =
        .ok (Code.of decl.span (.label (.classStart decl.name) :: words.map .word), after) ∧
      Code.of decl.span (.label (.classStart decl.name) :: words.map .word) <:+: data ∧
      Code.of decl.span (.label (.classStart decl.name) :: words.map .word) <:+: data'
  perm : data'.Perm data
  /-- In either data segment the lines of the classes are put together along the class tree.
  Without a class the segments are the same. -/
  assembled : (p.rootClass = .ok none ∧ data' = data) ∨
    ∃ root records records' literals,
      p.rootClass = .ok (some root) ∧ p'.rootClass = .ok (some root) ∧
      (p.classTree root).assemble (classLines p L) = .ok records ∧
      (p'.classTree root).assemble (classLines p L) = .ok records' ∧
      data = Code.of .dummy [.segment .data] ++ records ++ literals ∧
      data' = Code.of .dummy [.segment .data] ++ records' ++ literals

/-- A program without classes has no siblings. -/
theorem eq_of_rootClass_eq_none (h : p.SiblingsReordered p') (hroot : p.rootClass = .ok none) :
    p' = p := by
  have hempty : p.classes = #[] := by
    by_contra hne
    have hnonempty : p.classes.isEmpty = false := by simpa using hne
    simp only [Program.rootClass, hnonempty, Bool.false_eq_true, if_false, bind_eq_ok_iff,
      pure_eq_ok_iff] at hroot
    obtain ⟨_, _, hsome⟩ := hroot
    cases hsome
  have hempty' : p'.classes = #[] := by
    have hsize := h.size_classes
    rw [hempty] at hsize
    exact Array.eq_empty_of_size_eq_zero hsize
  rw [h.others, hempty', ← hempty]

/-- If a program can be laid out, it can be with siblings in any order, and the layout is the
same. -/
theorem rearranged_of_compute (h : p.SiblingsReordered p') (hcompute : compute p = .ok (L, data)) :
    ∃ data', compute p' = .ok (L, data') ∧ Rearranged p p' L data data' := by
  have complete := compute_eq_ok hcompute
  obtain ⟨records, literals, hrun, hliterals, hall, rfl⟩ := compute_eq_ok_iff.1 hcompute
  obtain ⟨_, _, ⟨root, hroot, hlays, hlaid⟩ | ⟨_, hroot, _⟩⟩ := classRecords_run hrun
  · -- Another order of siblings leads to the same entries.
    have hroot' : p'.rootClass = .ok (some root) := h.rootClass_eq.trans hroot
    obtain ⟨records', hlaid', hperm⟩ := hlaid.reorder h
    have hlays' := laysOutNodes_reordered h hlays
    rw [← h.size_classes, ← Program.classTree] at hlaid' hlays'
    rw [← blank_reordered h] at hlays'
    have hrun' := classRecords_of_laidOut hroot' hlaid' hlays'
    have hall' : ∀ entry ∈ p'.classes.toList.zip L.classes.toList, entry.2.isSome := by
      intro entry hentry
      obtain ⟨i, hi, rfl⟩ := List.mem_iff_getElem.1 hentry
      rw [List.length_zip, ← h.classes.length_eq, ← List.length_zip] at hi
      simpa using hall _ (List.getElem_mem hi)
    have hliterals' : stringLiterals p' = .ok literals :=
      (stringLiterals_reordered h).trans hliterals
    have hcompute' := compute_eq_ok_iff.2 ⟨records', literals, hrun', hliterals', hall', rfl⟩
    -- The records are put together from the same lines.
    have hrecords := hlaid.assemble_eq (LaidOut.reflects hlaid)
    have hrecords' := hlaid'.assemble_eq (LaidOut.reflects hlaid')
    rw [show classLines p' L = classLines p L from funext (classLines_reordered h)] at hrecords'
    refine ⟨_, hcompute', classLines_reordered h _, fun {c decl} hc => ?_,
      (hperm.append_left _).append_right _,
      Or.inr ⟨root, records, records', literals, hroot, hroot', hrecords, hrecords', rfl, rfl⟩⟩
    obtain ⟨_, hc', _⟩ := h.exists_classAt hc
    obtain ⟨before, after, hlines, hheld⟩ :=
      ClassTree.exists_infix_assemble hrecords ((complete.rooted hroot).mem hc)
    obtain ⟨_, _, hlines', hheld'⟩ := ClassTree.exists_infix_assemble hrecords'
      (((compute_eq_ok hcompute').rooted hroot').mem hc')
    obtain ⟨rfl, rfl⟩ := Prod.mk.inj (Except.ok.inj (hlines.symm.trans hlines'))
    obtain ⟨cl, words, hcl, hwords, rfl⟩ := exists_words_of_classLines hlines hc
    exact ⟨cl, words, after, hcl, hwords, hlines, hheld.trans ⟨_, _, rfl⟩,
      hheld'.trans ⟨_, _, rfl⟩⟩
  · -- Without a class both programs are the same.
    obtain rfl := eq_of_rootClass_eq_none h hroot
    refine ⟨_, hcompute, rfl, fun hc => ?_, .refl _, Or.inl ⟨hroot, rfl⟩⟩
    obtain ⟨root, hrooted⟩ := complete.exists_rooted hc
    exact absurd (hrooted.rootClass.symm.trans hroot) (by simp)

/-- Vehicles with both lists of siblings reversed. -/
theorem rearranged_vehicles : ∃ L data data',
    (vehicles [⟨2⟩, ⟨3⟩] [⟨4⟩, ⟨5⟩]).SiblingsReordered (vehicles [⟨3⟩, ⟨2⟩] [⟨5⟩, ⟨4⟩]) ∧
      compute (vehicles [⟨2⟩, ⟨3⟩] [⟨4⟩, ⟨5⟩]) = .ok (L, data) ∧
      compute (vehicles [⟨3⟩, ⟨2⟩] [⟨5⟩, ⟨4⟩]) = .ok (L, data') ∧
      Rearranged (vehicles [⟨2⟩, ⟨3⟩] [⟨4⟩, ⟨5⟩]) (vehicles [⟨3⟩, ⟨2⟩] [⟨5⟩, ⟨4⟩]) L data
        data' := by
  have hreordered :
      (vehicles [⟨2⟩, ⟨3⟩] [⟨4⟩, ⟨5⟩]).SiblingsReordered (vehicles [⟨3⟩, ⟨2⟩] [⟨5⟩, ⟨4⟩]) := by
    refine ⟨?_, rfl⟩
    have hsame : ∀ decl : ClassDecl, decl.Reordered decl := fun decl => ⟨_, .refl _, rfl⟩
    refine .cons (hsame _) (.cons ⟨_, .swap _ _ [], rfl⟩ (.cons ⟨_, .swap _ _ [], rfl⟩ ?_))
    exact .cons (hsame _) (.cons (hsame _) (.cons (hsame _) .nil))
  obtain ⟨⟨L, data⟩, h⟩ := exists_eq_ok_of_isSome
    (show (compute (vehicles [⟨2⟩, ⟨3⟩] [⟨4⟩, ⟨5⟩])).toOption.isSome by decide +kernel)
  obtain ⟨data', h', hrearranged⟩ := rearranged_of_compute hreordered h
  exact ⟨L, data, data', hreordered, h, h', hrearranged⟩

end Layout

end MipsBackend
