import MipsBackend.Proofs.Code.Steps
import MipsBackend.Proofs.Layout.Ranges
import MipsBackend.Proofs.Machine.Sequences

/-!
# Dispatch tables

A call finds its method by a slot of the receiver's table, and source programs find it by a name in
the receiver's class.  The slots come from links between overriding methods, while a table is copied
and changed down the class tree.  This module shows that the two agree.

`Answers` is the invariant of one class's table while its methods are placed, one after the other.
`Answers.place` is the step and `answers_placed` the run over all methods of a class.  The induction
over the class tree is `tableSound`: every slot holds the method that the class answers its name
with, and every method of the class or of an ancestor has its name in its slot.
-/

namespace MipsBackend

open Layout

variable {p : Program} {L : Layout} {data : Code} {root c d s : ClassId} {cdecl ddecl : ClassDecl}
  {m m' added o : MethodId} {mdecl decl : MethodDecl} {name : String}
  {vtable vtable' : List MethodId}

/-! ## Methods and their classes -/

theorem MethodTable.find?_eq_some_iff {t : MethodTable} :
    t.find? name = some m ↔ (name, m) ∈ t.entries := by
  rw [MethodTable.find?, List.lookup_eq_some_iff]
  constructor
  · rintro ⟨before, after, hentries, _⟩
    simp [hentries]
  · intro hmem
    obtain ⟨before, after, hentries⟩ := List.append_of_mem hmem
    refine ⟨before, after, hentries, fun entry hentry => ?_⟩
    have hnodup := t.nodup
    rw [hentries, List.map_append, List.nodup_append] at hnodup
    have hne := hnodup.2.2 entry.1 (List.mem_map_of_mem hentry) name (by simp)
    simpa using hne.symm

namespace Program

/-- Methods and classes refer to each other as a front end promises. -/
structure MethodsLinked (p : Program) : Prop where
  /-- A class lists a method under its own name, and is its owner. -/
  owned {c : ClassId} {cdecl : ClassDecl} {name : String} {m : MethodId} : p.classAt c = .ok cdecl →
    (name, m) ∈ cdecl.methods.entries →
    ∃ decl, p.methodAt m = .ok decl ∧ decl.name = name ∧ decl.owner = c
  /-- Every method is listed by its owner. -/
  listed {m : MethodId} {decl : MethodDecl} : p.methodAt m = .ok decl →
    ∃ cdecl, p.classAt decl.owner = .ok cdecl ∧ (decl.name, m) ∈ cdecl.methods.entries
  /-- An overriding method has the name of the overridden one. -/
  overridden {m o : MethodId} {decl : MethodDecl} : p.methodAt m = .ok decl →
    decl.overridden = some o → ∃ odecl, p.methodAt o = .ok odecl ∧ odecl.name = decl.name

/-- Every class lists methods of its own only and under their names, every method is listed by its
owner, and an overridden method has the name of the overriding one. -/
def listsMethods (p : Program) : Bool :=
  (p.classes.toList.zipIdx.all fun (cdecl, i) => cdecl.methods.entries.all fun (name, m) =>
    p.methods[m.toNat]?.any fun decl => decl.name == name && decl.owner == .ofNat i) &&
  p.methods.toList.zipIdx.all fun (decl, i) =>
    p.classes[decl.owner.toNat]?.any (·.methods.entries.contains (decl.name, .ofNat i)) &&
    decl.overridden.all fun o => p.methods[o.toNat]?.any (·.name == decl.name)

theorem methodsLinked_of_listsMethods (h : p.listsMethods) : p.MethodsLinked := by
  obtain ⟨hclasses, hmethods⟩ := Bool.and_eq_true_iff.1 h
  have hmethod : ∀ {m decl}, p.methodAt m = .ok decl →
      (∃ cdecl, p.classAt decl.owner = .ok cdecl ∧ (decl.name, m) ∈ cdecl.methods.entries) ∧
      ∀ o, decl.overridden = some o →
        ∃ odecl, p.methodAt o = .ok odecl ∧ odecl.name = decl.name := by
    intro m decl hdecl
    have hmem : (decl, m.toNat) ∈ p.methods.toList.zipIdx := by
      rw [List.mk_mem_zipIdx_iff_getElem?, Array.getElem?_toList]
      exact lookup_eq_ok_iff.1 hdecl
    have hchecked := List.all_eq_true.1 hmethods _ hmem
    simp only [Bool.and_eq_true, Option.any_eq_true, NodeId.ofNat_toNat] at hchecked
    obtain ⟨⟨cdecl, hcdecl, hlisted⟩, hover⟩ := hchecked
    refine ⟨⟨cdecl, lookup_eq_ok_iff.2 hcdecl, by simpa using hlisted⟩, fun o ho => ?_⟩
    simp only [ho, Option.all_some, Option.any_eq_true] at hover
    obtain ⟨odecl, hodecl, hname⟩ := hover
    exact ⟨odecl, lookup_eq_ok_iff.2 hodecl, by simpa using hname⟩
  refine ⟨fun {c cdecl name m} hc hentry => ?_, fun hm => (hmethod hm).1,
    fun {m o decl} hm ho => (hmethod hm).2 o ho⟩
  have hmem : (cdecl, c.toNat) ∈ p.classes.toList.zipIdx := by
    rw [List.mk_mem_zipIdx_iff_getElem?, Array.getElem?_toList]
    exact lookup_eq_ok_iff.1 hc
  have hchecked := List.all_eq_true.1 (List.all_eq_true.1 hclasses _ hmem) _ hentry
  simp only [Option.any_eq_true, Bool.and_eq_true, NodeId.ofNat_toNat] at hchecked
  obtain ⟨decl, hdecl, hname, howner⟩ := hchecked
  exact ⟨decl, lookup_eq_ok_iff.2 hdecl, by simpa using hname, by simpa using howner⟩

theorem MethodsLinked.exists_owned (methods : p.MethodsLinked)
    (hc : p.classAt c = .ok cdecl) (hm : m ∈ cdecl.methods.methods) :
    ∃ decl, p.methodAt m = .ok decl ∧ decl.owner = c := by
  obtain ⟨⟨name, _⟩, hentry, rfl⟩ := List.mem_map.1 hm
  obtain ⟨decl, hdecl, _, howner⟩ := methods.owned hc hentry
  exact ⟨decl, hdecl, howner⟩

theorem MethodsLinked.exists_label (methods : p.MethodsLinked) {m : MethodId}
    (h : p.methodAt m = .ok decl) : ∃ label, p.methodLabel m = .ok label := by
  obtain ⟨cdecl, howner, _⟩ := methods.listed h
  rw [methodLabel, h]
  simp only [bind, Except.bind]
  cases decl.origin with
  | runtime => exact ⟨_, by rw [howner]; rfl⟩
  | user span => exact ⟨_, rfl⟩

theorem lookupMethod_of_own (hc : p.classAt c = .ok cdecl)
    (hmem : (name, m) ∈ cdecl.methods.entries) : p.lookupMethod c name = .ok (some m) := by
  rw [lookupMethod, ownMethod, hc]
  simp [bind, Except.bind, pure, Except.pure, MethodTable.find?_eq_some_iff.2 hmem]

theorem lookupMethod_of_not_own (hc : p.classAt c = .ok cdecl)
    (hnone : ∀ m, (name, m) ∉ cdecl.methods.entries) :
    p.lookupMethod c name = p.inheritedMethod c name := by
  have hfind : cdecl.methods.find? name = none := by
    cases hfind : cdecl.methods.find? name with
    | none => rfl
    | some m => exact absurd (MethodTable.find?_eq_some_iff.1 hfind) (hnone m)
  rw [lookupMethod, ownMethod, hc]
  simp [bind, Except.bind, pure, Except.pure, hfind]

end Program

namespace Layout

/-! ## One class -/

/-- A table of class `c` while its methods are placed.  It answers a name with the method of that
name among those placed so far, else with the method that the class inherits. -/
structure Answers (p : Program) (L : Layout) (c : ClassId) (placed vtable : List MethodId) :
    Prop where
  entry {i : Nat} {m : MethodId} : vtable[i]? = some m → ∃ decl ml, p.methodAt m = .ok decl ∧
    L.methodAt m = .ok ml ∧ ml.slot = i + 1 ∧
      (m ∈ placed ∨ p.inheritedMethod c decl.name = .ok (some m) ∧
        ∀ m' ∈ placed, ∀ decl', p.methodAt m' = .ok decl' → decl'.name ≠ decl.name)
  reached {m : MethodId} {decl : MethodDecl} : p.methodAt m = .ok decl →
    (m ∈ placed ∨ ∃ s, p.Extends c s ∧ p.Descends s decl.owner) →
    ∃ ml i m' decl', L.methodAt m = .ok ml ∧ ml.slot = i + 1 ∧ vtable[i]? = some m' ∧
      p.methodAt m' = .ok decl' ∧ decl'.name = decl.name

/-- A kept entry stays right when a method of another name has been placed. -/
theorem Answers.entry_append {placed : List MethodId} (h : Answers p L c placed vtable)
    (hid : p.methodAt added = .ok decl) {i : Nat} (hm : vtable[i]? = some m)
    (hother : ∀ mdecl ml, p.methodAt m = .ok mdecl → L.methodAt m = .ok ml → ml.slot = i + 1 →
      p.inheritedMethod c mdecl.name = .ok (some m) → decl.name ≠ mdecl.name) :
    ∃ mdecl ml, p.methodAt m = .ok mdecl ∧ L.methodAt m = .ok ml ∧ ml.slot = i + 1 ∧
      (m ∈ placed ++ [added] ∨ p.inheritedMethod c mdecl.name = .ok (some m) ∧
        ∀ m' ∈ placed ++ [added], ∀ decl', p.methodAt m' = .ok decl' →
          decl'.name ≠ mdecl.name) := by
  obtain ⟨mdecl, ml, hmdecl, hml, hslot, hplaced | ⟨hinherited, hnot⟩⟩ := h.entry hm
  · exact ⟨mdecl, ml, hmdecl, hml, hslot, Or.inl (List.mem_append_left _ hplaced)⟩
  · refine ⟨mdecl, ml, hmdecl, hml, hslot, Or.inr ⟨hinherited, fun m' hm' decl' hdecl' => ?_⟩⟩
    rcases List.mem_append.1 hm' with hm' | hm'
    · exact hnot m' hm' decl' hdecl'
    · obtain rfl := List.mem_singleton.1 hm'
      obtain rfl : decl = decl' := Except.ok.inj (hid.symm.trans hdecl')
      exact hother mdecl ml hmdecl hml hslot hinherited

/-- A method whose name no method placed before has stands for what the class inherits. -/
theorem Answers.inherited_of_entry {placed : List MethodId} (h : Answers p L c placed vtable)
    (hfresh : ∀ m' ∈ placed, ∀ decl', p.methodAt m' = .ok decl' → decl'.name ≠ name)
    {i : Nat} {odecl : MethodDecl} (ho : vtable[i]? = some o) (hodecl : p.methodAt o = .ok odecl)
    (hname : odecl.name = name) :
    p.inheritedMethod c name = .ok (some o) ∧ ∃ oml, L.methodAt o = .ok oml ∧ oml.slot = i + 1 := by
  obtain ⟨odecl', oml, hodecl', homl, hoslot, hplaced | ⟨hinherited, _⟩⟩ := h.entry ho
  · exact absurd hname (hfresh o hplaced odecl hodecl)
  · obtain rfl : odecl = odecl' := Except.ok.inj (hodecl.symm.trans hodecl')
    exact ⟨hname ▸ hinherited, oml, homl, hoslot⟩

section Place

variable {placed : List MethodId} (h : Answers p L c placed vtable)
  (hid : p.methodAt added = .ok decl)
include h hid

/-- A method that takes the place of an inherited one of its name keeps the invariant. -/
theorem Answers.override
    (hfresh : ∀ m' ∈ placed, ∀ decl', p.methodAt m' = .ok decl' → decl'.name ≠ decl.name)
    {ml : MethodLayout} {i : Nat} {odecl : MethodDecl}
    (hml : L.methodAt added = .ok ml) (hslot : ml.slot = i + 1) (ho : vtable[i]? = some o)
    (hodecl : p.methodAt o = .ok odecl) (hname : odecl.name = decl.name) :
    Answers p L c (placed ++ [added]) (vtable.set i added) := by
  have hlt : i < vtable.length := (List.getElem?_eq_some_iff.1 ho).1
  obtain ⟨hinherited, oml, homl, hoslot⟩ := h.inherited_of_entry hfresh ho hodecl hname
  constructor
  · intro j m hm
    by_cases hij : i = j
    · subst hij
      rw [List.getElem?_set_self hlt, Option.some.injEq] at hm
      subst hm
      exact ⟨decl, ml, hid, hml, hslot, Or.inl (by simp)⟩
    · rw [List.getElem?_set_ne hij] at hm
      refine h.entry_append hid hm fun mdecl mml _ hmml hmslot hm' hsame => ?_
      -- Two inherited methods of one name would share the slot.
      rw [← hsame, hinherited, Except.ok.injEq, Option.some.injEq] at hm'
      subst hm'
      obtain rfl : oml = mml := Except.ok.inj (homl.symm.trans hmml)
      omega
  · intro m mdecl hmdecl hfrom
    rw [List.mem_append, List.mem_singleton] at hfrom
    rcases hfrom with (hm | rfl) | hup
    case inl.inr =>
      obtain rfl : decl = mdecl := Except.ok.inj (hid.symm.trans hmdecl)
      exact ⟨ml, i, m, decl, hml, hslot, List.getElem?_set_self hlt, hid, rfl⟩
    all_goals
      obtain ⟨mml, j, m', decl', hmml, hmslot, hm', hdecl', hm'name⟩ :=
        h.reached hmdecl (by first | exact Or.inl hm | exact Or.inr hup)
      by_cases hij : i = j
      · subst hij
        obtain rfl : o = m' := Option.some.inj (ho.symm.trans hm')
        obtain rfl : odecl = decl' := Except.ok.inj (hodecl.symm.trans hdecl')
        exact ⟨mml, i, added, decl, hmml, hmslot, List.getElem?_set_self hlt, hid,
          hname.symm.trans hm'name⟩
      · exact ⟨mml, j, m', decl', hmml, hmslot, by rwa [List.getElem?_set_ne hij], hdecl',
          hm'name⟩

/-- A method that no ancestor knows the name of opens a slot and keeps the invariant. -/
theorem Answers.opened {ml : MethodLayout} (hml : L.methodAt added = .ok ml)
    (hslot : ml.slot = vtable.length + 1)
    (hnone : p.inheritedMethod c decl.name = .ok none) :
    Answers p L c (placed ++ [added]) (vtable ++ [added]) := by
  constructor
  · intro j m hm
    rcases Nat.lt_or_ge j vtable.length with hj | hj
    · rw [List.getElem?_append_left hj] at hm
      refine h.entry_append hid hm fun mdecl mml _ _ _ hm' hsame => ?_
      rw [← hsame, hnone] at hm'
      simp at hm'
    · rw [List.getElem?_append_right hj, List.getElem?_singleton] at hm
      split at hm
      · obtain rfl := Option.some.inj hm
        exact ⟨decl, ml, hid, hml, by omega, Or.inl (by simp)⟩
      · simp at hm
  · intro m mdecl hmdecl hfrom
    rw [List.mem_append, List.mem_singleton] at hfrom
    rcases hfrom with (hm | rfl) | hup
    case inl.inr =>
      obtain rfl : decl = mdecl := Except.ok.inj (hid.symm.trans hmdecl)
      exact ⟨ml, vtable.length, m, decl, hml, hslot, by simp, hid, rfl⟩
    all_goals
      obtain ⟨mml, j, m', decl', hmml, hmslot, hm', hdecl', hm'name⟩ :=
        h.reached hmdecl (by first | exact Or.inl hm | exact Or.inr hup)
      have hj := (List.getElem?_eq_some_iff.1 hm').1
      exact ⟨mml, j, m', decl', hmml, hmslot, by rwa [List.getElem?_append_left hj], hdecl',
        hm'name⟩

end Place

/-- Placing a method keeps the invariant. -/
theorem Answers.place {placed : List MethodId} (h : Answers p L c placed vtable)
    (methods : p.MethodsLinked) (slots : L.SlotsPositive) (hid : p.methodAt added = .ok decl)
    (hplaced : MethodPlaced p L c vtable added vtable')
    (hfresh : ∀ m' ∈ placed, ∀ decl', p.methodAt m' = .ok decl' → decl'.name ≠ decl.name) :
    Answers p L c (placed ++ [added]) vtable' := by
  obtain ⟨decl', ml, tys, hdecl', hml, _, hassigned⟩ := hplaced
  obtain rfl : decl = decl' := Except.ok.inj (hid.symm.trans hdecl')
  generalize hslot : ml.slot = slot at hassigned
  cases hassigned with
  | @override o oml hover homl ho =>
    obtain ⟨odecl, hodecl, hname⟩ := methods.overridden hid hover
    have hpositive := slots homl
    exact h.override hid hfresh hml (by omega) ho hodecl hname
  | opened hnone hinherited => exact h.opened hid hml hslot hinherited

/-- The methods of a class have different names. -/
theorem name_ne_of_methods_eq (methods : p.MethodsLinked) (hc : p.classAt c = .ok cdecl)
    {placed todo : List MethodId} (hlist : placed ++ added :: todo = cdecl.methods.methods)
    (hm : m ∈ placed) (hmdecl : p.methodAt m = .ok mdecl) (hid : p.methodAt added = .ok decl) :
    mdecl.name ≠ decl.name := by
  obtain ⟨before, after, hentries, rfl, hafter⟩ := List.map_eq_append_iff.1 hlist.symm
  obtain ⟨⟨name, added⟩, after, rfl, rfl, _⟩ := List.map_eq_cons_iff.1 hafter
  obtain ⟨⟨name', m⟩, hbefore, rfl⟩ := List.mem_map.1 hm
  have hnodup := cdecl.methods.nodup
  rw [hentries, List.map_append, List.nodup_append] at hnodup
  have hne : name' ≠ name := hnodup.2.2 name' (List.mem_map_of_mem hbefore) name (by simp)
  have hadded : (name, added) ∈ cdecl.methods.entries := by
    rw [hentries]
    simp
  have hkept : (name', m) ∈ cdecl.methods.entries := by
    rw [hentries]
    exact List.mem_append_left _ hbefore
  obtain ⟨decl', hdecl', rfl, _⟩ := methods.owned hc hadded
  obtain ⟨mdecl', hmdecl', rfl, _⟩ := methods.owned hc hkept
  obtain rfl : decl = decl' := Except.ok.inj (hid.symm.trans hdecl')
  obtain rfl : mdecl = mdecl' := Except.ok.inj (hmdecl.symm.trans hmdecl')
  exact hne

/-- The invariant holds when all methods of the class are placed, if it holds before. -/
theorem answers_placed (methods : p.MethodsLinked) (slots : L.SlotsPositive)
    (hc : p.classAt c = .ok cdecl) {placed todo : List MethodId}
    (hlist : placed ++ todo = cdecl.methods.methods)
    (hfolds : Folds (MethodPlaced p L c) vtable todo vtable')
    (h : Answers p L c placed vtable) : Answers p L c cdecl.methods.methods vtable' := by
  induction hfolds generalizing placed with
  | nil =>
    rw [List.append_nil] at hlist
    exact hlist ▸ h
  | @cons _ _ _ added todo hfirst _ ih =>
    obtain ⟨decl, _, _, hdecl, _⟩ := id hfirst
    refine ih (by simpa using hlist) (h.place methods slots hdecl hfirst ?_)
    intro m' hm' decl' hdecl'
    exact name_ne_of_methods_eq methods hc hlist hm' hdecl' hdecl

/-! ## All classes -/

/-- The table of class `c` holds what the class answers names with. -/
structure TableSound (p : Program) (L : Layout) (c : ClassId) (cl : ClassLayout) : Prop where
  layout : L.classAt c = .ok cl
  entry {i : Nat} {m : MethodId} : cl.vtable[i]? = some m → ∃ decl ml, p.methodAt m = .ok decl ∧
    L.methodAt m = .ok ml ∧ ml.slot = i + 1 ∧ p.lookupMethod c decl.name = .ok (some m)
  reached {m : MethodId} {decl : MethodDecl} : p.methodAt m = .ok decl →
    p.Descends c decl.owner →
    ∃ ml i m' decl', L.methodAt m = .ok ml ∧ ml.slot = i + 1 ∧ cl.vtable[i]? = some m' ∧
      p.methodAt m' = .ok decl' ∧ decl'.name = decl.name

section Complete

variable (methods : p.MethodsLinked) (hc : p.classAt c = .ok cdecl)
  (h : Answers p L c cdecl.methods.methods vtable)
include methods hc h

/-- With all methods of the class placed, a slot holds what the class answers names with. -/
theorem Answers.entry_lookup {i : Nat} (hm : vtable[i]? = some m) :
    ∃ decl ml, p.methodAt m = .ok decl ∧ L.methodAt m = .ok ml ∧ ml.slot = i + 1 ∧
      p.lookupMethod c decl.name = .ok (some m) := by
  obtain ⟨decl, ml, hdecl, hml, hslot, hown | ⟨hinherited, hnot⟩⟩ := h.entry hm
  · obtain ⟨⟨name, _⟩, hmem, rfl⟩ := List.mem_map.1 hown
    obtain ⟨decl', hdecl', rfl, _⟩ := methods.owned hc hmem
    obtain rfl : decl = decl' := Except.ok.inj (hdecl.symm.trans hdecl')
    exact ⟨decl, ml, hdecl, hml, hslot, Program.lookupMethod_of_own hc hmem⟩
  · refine ⟨decl, ml, hdecl, hml, hslot, ?_⟩
    rw [Program.lookupMethod_of_not_own hc fun m' hm' => ?_, hinherited]
    obtain ⟨decl', hdecl', hname, _⟩ := methods.owned hc hm'
    exact hnot m' (List.mem_map_of_mem (f := Prod.snd) hm') decl' hdecl' hname

/-- With all methods of the class placed, those of the class and of its ancestors have slots. -/
theorem Answers.reached_descends (hdecl : p.methodAt m = .ok decl)
    (hdesc : p.Descends c decl.owner) :
    ∃ ml i m' decl', L.methodAt m = .ok ml ∧ ml.slot = i + 1 ∧ vtable[i]? = some m' ∧
      p.methodAt m' = .ok decl' ∧ decl'.name = decl.name := by
  refine h.reached hdecl ?_
  rcases hdesc.cases_head with rfl | hup
  · obtain ⟨cdecl', hc', hmem⟩ := methods.listed hdecl
    obtain rfl : cdecl = cdecl' := Except.ok.inj (hc.symm.trans hc')
    exact Or.inl (List.mem_map_of_mem (f := Prod.snd) hmem)
  · exact Or.inr hup

end Complete

theorem Answers.tableSound (methods : p.MethodsLinked) (hc : p.classAt c = .ok cdecl)
    {cl : ClassLayout} (hcl : L.classAt c = .ok cl)
    (h : Answers p L c cdecl.methods.methods cl.vtable) : TableSound p L c cl :=
  ⟨hcl, h.entry_lookup methods hc, h.reached_descends methods hc⟩

/-- A root class starts from an empty table. -/
theorem answers_of_isRoot (hr : p.IsRoot c) : Answers p L c [] [] := by
  constructor
  · simp
  · rintro m mdecl _ (hm | ⟨s, hs, _⟩)
    · exact absurd hm List.not_mem_nil
    · exact absurd hs hr.not_extends

/-- A subclass starts from the table of its superclass. -/
theorem answers_of_extends (tree : p.IsClassTree) (hs : p.Extends c s)
    (hentry : ∀ {i m}, vtable[i]? = some m → ∃ decl ml, p.methodAt m = .ok decl ∧
      L.methodAt m = .ok ml ∧ ml.slot = i + 1 ∧ p.lookupMethod s decl.name = .ok (some m))
    (hreached : ∀ {m decl}, p.methodAt m = .ok decl → p.Descends s decl.owner →
      ∃ ml i m' decl', L.methodAt m = .ok ml ∧ ml.slot = i + 1 ∧ vtable[i]? = some m' ∧
        p.methodAt m' = .ok decl' ∧ decl'.name = decl.name) : Answers p L c [] vtable := by
  constructor
  · intro i m hm
    obtain ⟨mdecl, ml, hmdecl, hml, hslot, hlookup⟩ := hentry hm
    refine ⟨mdecl, ml, hmdecl, hml, hslot, Or.inr ⟨?_, by simp⟩⟩
    rw [tree.inheritedMethod_of_extends hs, hlookup]
  · rintro m mdecl hmdecl (hm | ⟨s', hs', hdesc⟩)
    · exact absurd hm List.not_mem_nil
    · obtain rfl := hs.unique hs'
      exact hreached hmdecl hdesc

theorem FieldPlaced.vtable_eq {cl cl' : ClassLayout} {vars : List VarId}
    (h : Folds (FieldPlaced p L) cl vars cl') : cl'.vtable = cl.vtable := by
  induction h with
  | nil => rfl
  | cons hfirst _ ih =>
    obtain ⟨decl, _, hplaced⟩ := hfirst
    split at hplaced
    · rw [ih, hplaced.2]
    · rw [ih, hplaced.2]

/-- Every class is laid out from its superclass's layout, a root from the empty one. -/
theorem Recorded.exists_classPlaced (h : Recorded p L data root) (tree : p.IsClassTree)
    (hc : p.classAt c = .ok cdecl) : ∃ inherited cl, ClassPlaced p L inherited c cdecl cl ∧
      ((p.IsRoot c ∧ inherited = .root) ∨ ∃ s, p.Extends c s ∧ L.classAt s = .ok inherited) := by
  obtain ⟨pre, records, post, rfl, hlaid⟩ := h.exists_code
  obtain ⟨inherited, cl, hplaced, hfrom⟩ := hlaid.exists_classPlaced h.reflects (h.mem hc) hc
  refine ⟨inherited, cl, hplaced, ?_⟩
  rcases hfrom with ⟨rfl, rfl⟩ | ⟨s, hs, hsl⟩
  · rw [Program.id_classTree]
    exact Or.inl ⟨h.isRoot, rfl⟩
  · exact Or.inr ⟨s, (tree.mirror _ s).2 hs, hsl⟩

/-- On a well-linked program all tables are sound. -/
theorem exists_tableSound (tree : p.IsClassTree) (methods : p.MethodsLinked)
    (h : Complete p L data) (hc : p.classAt c = .ok cdecl) : ∃ cl, TableSound p L c cl := by
  obtain ⟨root, hrec⟩ := h.exists_recorded tree hc
  refine tree.induction (motive := fun c => ∃ cl, TableSound p L c cl) ?_ ?_ hc
  · intro r hr
    obtain ⟨decl, hdecl, _⟩ := id hr
    obtain ⟨inherited, cl, hplaced, hfrom⟩ := hrec.exists_classPlaced tree hdecl
    rcases hfrom with ⟨_, rfl⟩ | ⟨s, hs, _⟩
    · obtain ⟨fields, hfields, hmethods, _⟩ := hplaced.exists_fields
      rw [FieldPlaced.vtable_eq hfields] at hmethods
      exact ⟨cl, Answers.tableSound methods hdecl hplaced.layout
        (answers_placed methods h.slots hdecl (List.nil_append _) hmethods (answers_of_isRoot hr))⟩
    · exact absurd hs hr.not_extends
  · rintro c s hs ⟨scl, hsound⟩
    obtain ⟨decl, hdecl, _⟩ := id hs
    obtain ⟨inherited, cl, hplaced, hfrom⟩ := hrec.exists_classPlaced tree hdecl
    rcases hfrom with ⟨hr, _⟩ | ⟨s', hs', hsl⟩
    · exact absurd hs hr.not_extends
    · obtain rfl := hs.unique hs'
      obtain rfl : scl = inherited := Except.ok.inj (hsound.layout.symm.trans hsl)
      obtain ⟨fields, hfields, hmethods, _⟩ := hplaced.exists_fields
      rw [FieldPlaced.vtable_eq hfields] at hmethods
      have hanswers := answers_of_extends tree hs hsound.entry hsound.reached
      exact ⟨cl, Answers.tableSound methods hdecl hplaced.layout
        (answers_placed methods h.slots hdecl (List.nil_append _) hmethods hanswers)⟩

/-! ## Records -/

/-- The words of a record: that of the superclass, then the labels of the table's methods. -/
def RecordWords (p : Program) (superclass : Option ClassId) (cl : ClassLayout)
    (words : List DataWord) : Prop :=
  ∃ superWord table, words = superWord :: table ∧ IsSuperWord p superclass superWord ∧
    List.Forall₂ (fun m word => ∃ label, p.methodLabel m = .ok label ∧ word = .label label)
      cl.vtable table

theorem exists_recordWords {superclass : Option ClassId} {cl : ClassLayout} {body : List Inst}
    (h : recordBody p superclass cl = .ok body) :
    ∃ words, body = words.map .word ∧ RecordWords p superclass cl words := by
  obtain ⟨superWord, insts, rfl, hsuper, htable⟩ := recordBody_eq_ok h
  obtain ⟨table, rfl, hwords⟩ : ∃ table : List DataWord, insts = table.map .word ∧
      List.Forall₂ (fun m word => ∃ label, p.methodLabel m = .ok label ∧ word = .label label)
        cl.vtable table := by
    clear h
    generalize cl.vtable = methods at htable ⊢
    induction htable with
    | nil => exact ⟨[], rfl, .nil⟩
    | cons hfirst _ ih =>
      obtain ⟨label, hlabel, rfl⟩ := hfirst
      obtain ⟨table, rfl, hrest⟩ := ih
      exact ⟨.label label :: table, rfl, .cons ⟨label, hlabel, rfl⟩ hrest⟩
  exact ⟨superWord :: table, rfl, superWord, table, rfl, hsuper, hwords⟩

/-- The word of a slot is the label of the method in it. -/
theorem RecordWords.getElem?_slot {superclass : Option ClassId} {cl : ClassLayout}
    {words : List DataWord} {k : Nat} (h : RecordWords p superclass cl words)
    (hm : cl.slot? k = some m) :
    ∃ label, p.methodLabel m = .ok label ∧ words[k]? = some (.label label) := by
  obtain ⟨superWord, table, rfl, _, htable⟩ := h
  cases k with
  | zero => simp [ClassLayout.slot?] at hm
  | succ k =>
    obtain ⟨hlt, rfl⟩ := List.getElem?_eq_some_iff.1 hm
    have hlt' : k < table.length := by
      rw [← htable.length_eq]
      exact hlt
    obtain ⟨label, hlabel, hword⟩ := htable.get hlt hlt'
    refine ⟨label, hlabel, ?_⟩
    rw [List.getElem?_cons_succ, List.getElem?_eq_getElem hlt']
    exact congrArg some hword

section Records

variable (tree : p.IsClassTree) (names : p.RecordNamesDistinct) (h : Recorded p L data root)
  {cl : ClassLayout}
include tree names h

/-- The record of a class holds the class's table. -/
theorem Recorded.exists_words (hc : p.classAt c = .ok cdecl) (hcl : L.classAt c = .ok cl) :
    ∃ words, RecordWords p cdecl.superclass cl words ∧
      data.HoldsWords (.classStart cdecl.name) words := by
  have hcount : data.labels.count (.classStart cdecl.name) = 1 :=
    h.count_eq_one tree names (Or.inl rfl) (h.recordUnder tree names hc)
  obtain ⟨pre, records, post, rfl, hlaid⟩ := h.exists_code
  obtain ⟨sub, _, pre', code, post', hid, hreflects, hsub, rfl, _⟩ :=
    hlaid.exists_subtree h.reflects (h.mem hc)
  cases sub with
  | broken id fault => exact hsub.elim
  | node id decl subclasses =>
    obtain rfl : id = c := hid
    obtain rfl : decl = cdecl := Except.ok.inj (hreflects.1.symm.trans hc)
    obtain ⟨cl', body, descendants, arrays, hplaced, hbody, _, _, rfl⟩ := hsub
    obtain rfl : cl = cl' := Except.ok.inj (hcl.symm.trans hplaced.layout)
    obtain ⟨words, rfl, hwords⟩ := exists_recordWords hbody
    refine ⟨words, hwords, hcount, Code.insts (pre ++ pre'), Code.insts (descendants ++
      Code.of decl.span (arrays ++ [.label (.classEnd decl.name)]) ++ post' ++ post), ?_⟩
    simp [Code.insts_append]

/-- The records of arrays hold the table of the root. -/
theorem Recorded.exists_arrayWords (hcl : L.classAt root = .ok cl)
    (harray : name = scalarArrayRecord ∨ name = referenceArrayRecord) :
    ∃ words, RecordWords p (some root) cl words ∧ data.HoldsWords (.classStart name) words := by
  have hcount : data.labels.count (.classStart name) = 1 :=
    h.count_eq_one tree names (Or.inl rfl) ((names.recordUnder_array_iff harray).2 h.isRoot)
  obtain ⟨pre, records, post, rfl, hlaid⟩ := h.exists_code
  obtain ⟨rdecl, hroot, hnone⟩ := h.isRoot
  have hreflects := h.reflects
  have hid := p.id_classTree root
  cases htree : p.classTree root with
  | broken id fault =>
    rw [htree] at hlaid
    exact hlaid.elim
  | node id decl subclasses =>
    rw [htree] at hlaid hreflects hid
    obtain rfl : id = root := hid
    obtain rfl : decl = rdecl := Except.ok.inj (hreflects.1.symm.trans hroot)
    obtain ⟨cl', body, descendants, arrays, hplaced, _, _, harrays, rfl⟩ := hlaid
    obtain rfl : cl = cl' := Except.ok.inj (hcl.symm.trans hplaced.layout)
    rw [if_pos (by simp [hnone]), arrayRecords, bind_eq_ok_iff] at harrays
    obtain ⟨arrayBody, harrayBody, harrays⟩ := harrays
    obtain rfl := pure_eq_ok_iff.1 harrays
    obtain ⟨words, rfl, hwords⟩ := exists_recordWords harrayBody
    refine ⟨words, hwords, hcount, ?_⟩
    rcases harray with rfl | rfl
    · exact ⟨Code.insts (pre ++ Code.of decl.span (.label (.classStart decl.name) :: body)
        ++ descendants), .label (.classEnd scalarArrayRecord)
          :: .label (.classStart referenceArrayRecord) :: words.map .word
          ++ [.label (.classEnd referenceArrayRecord), .label (.classEnd decl.name)]
          ++ Code.insts post, by simp [Code.insts_append]⟩
    · exact ⟨Code.insts (pre ++ Code.of decl.span (.label (.classStart decl.name) :: body)
        ++ descendants ++ Code.of decl.span (.label (.classStart scalarArrayRecord)
          :: words.map .word ++ [.label (.classEnd scalarArrayRecord)])),
        [.label (.classEnd referenceArrayRecord), .label (.classEnd decl.name)]
          ++ Code.insts post, by simp [Code.insts_append]⟩

end Records

/-! ## Virtual calls -/

/-- Class `c` answers the name of method `m` with the method `target`, whose code is at `label`. -/
def Resolves (p : Program) (c : ClassId) (m target : MethodId) (label : Label) : Prop :=
  ∃ mdecl, p.methodAt m = .ok mdecl ∧ p.lookupMethod c mdecl.name = .ok (some target) ∧
    p.methodLabel target = .ok label

/-- The tables of a program agree with the look-up of methods by name. -/
structure TablesResolve (p : Program) (L : Layout) (data : Code) : Prop where
  /-- The slot of a method that a class or an ancestor declares holds what the class answers the
  method's name with, both in the layout and in the record of the class, where slot 0 is the
  superclass word. -/
  table {c d : ClassId} {cdecl ddecl : ClassDecl} {m : MethodId} : p.classAt c = .ok cdecl →
    p.classAt d = .ok ddecl → p.isSubclass c d = .ok true → m ∈ ddecl.methods.methods →
    ∃ ml cl target label words superWord, L.methodAt m = .ok ml ∧ L.classAt c = .ok cl ∧
      Resolves p c m target label ∧ cl.slot? ml.slot = some target ∧
      data.HoldsWords (.classStart cdecl.name) words ∧
      IsSuperWord p cdecl.superclass superWord ∧ words[0]? = some superWord ∧
      words[ml.slot]? = some (.label label)
  /-- The records of arrays hold the table of the root. -/
  arrays {root : ClassId} {rdecl : ClassDecl} {name : String} : p.classAt root = .ok rdecl →
    rdecl.superclass = none → name = scalarArrayRecord ∨ name = referenceArrayRecord →
    ∃ cl words, L.classAt root = .ok cl ∧ RecordWords p (some root) cl words ∧
      data.HoldsWords (.classStart name) words
  /-- The code of a virtual call on an object of a class jumps to the method that the class answers
  with, whose address it loads at the method's offset in the record. -/
  call {c d : ClassId} {cdecl ddecl : ClassDecl} {m : MethodId} {info : ExprInfo}
    {receiver : Unit → ExprTree} {args : List (Unit → ExprTree)} {f f' : Frame} {code : Code} :
    p.classAt c = .ok cdecl → p.classAt d = .ok ddecl → p.isSubclass c d = .ok true →
    m ∈ ddecl.methods.methods → (receiver ()).isSuper = false →
    ((ExprTree.call info receiver m args).code p L).run f = .ok (code, f') →
    ∃ operands enter ml target label, code = operands ++ Code.of info.span enter ∧
      Gen.dispatch ml = .ok enter ∧ L.methodAt m = .ok ml ∧ Resolves p c m target label ∧
      ∀ (image : Image) (i : Nat) (machine : Machine) (r : Word), image.Loads data machine.mem →
        machine.mem (machine.reg .sp + .ofInt (ml.receiverOffset - wordSize)) = r → r ≠ 0 →
        machine.mem (r + .ofInt classRecordOffset) = image.label (.classStart cdecl.name) →
        machine.mem (image.label (.classStart cdecl.name) + .ofInt ml.entryOffset) =
            image.label label ∧
          ∃ after, execFrom image i machine enter = .goto (image.label label) after

/-- On a well-linked program, dynamic dispatch through the tables is the look-up by name. -/
theorem tablesResolve_of_compute (tree : p.IsClassTree) (names : p.RecordNamesDistinct)
    (methods : p.MethodsLinked) (h : compute p = .ok (L, data)) : TablesResolve p L data := by
  have hcomplete := compute_eq_ok h
  have htable : ∀ {c d cdecl ddecl m}, p.classAt c = .ok cdecl → p.classAt d = .ok ddecl →
      p.isSubclass c d = .ok true → m ∈ ddecl.methods.methods →
      ∃ ml cl target label words superWord, L.methodAt m = .ok ml ∧ L.classAt c = .ok cl ∧
        Resolves p c m target label ∧ cl.slot? ml.slot = some target ∧
        data.HoldsWords (.classStart cdecl.name) words ∧
        IsSuperWord p cdecl.superclass superWord ∧ words[0]? = some superWord ∧
        words[ml.slot]? = some (.label label) := by
    intro c d cdecl ddecl m hc hd hsub hm
    obtain ⟨root, hrec⟩ := hcomplete.exists_recorded tree hc
    obtain ⟨cl, hsound⟩ := exists_tableSound tree methods hcomplete hc
    obtain ⟨⟨name, _⟩, hentry, rfl⟩ := List.mem_map.1 hm
    obtain ⟨mdecl, hmdecl, rfl, rfl⟩ := methods.owned hd hentry
    have hdesc : p.Descends c mdecl.owner := by
      simpa [tree.isSubclass_eq hc] using hsub
    obtain ⟨ml, i, target, tdecl, hml, hslot, htarget, htdecl, hname⟩ :=
      hsound.reached hmdecl hdesc
    obtain ⟨tdecl', _, htdecl', _, _, hlookup⟩ := hsound.entry htarget
    obtain rfl : tdecl = tdecl' := Except.ok.inj (htdecl.symm.trans htdecl')
    obtain ⟨words, hwords, hholds⟩ := hrec.exists_words tree names hc hsound.layout
    have hslot? : cl.slot? ml.slot = some target := by
      rw [hslot]
      exact htarget
    obtain ⟨label, hlabel, hword⟩ := hwords.getElem?_slot hslot?
    obtain ⟨superWord, table, rfl, hsuper, _⟩ := hwords
    exact ⟨ml, cl, target, label, _, superWord, hml, hsound.layout,
      ⟨mdecl, hmdecl, hname ▸ hlookup, hlabel⟩, hslot?, hholds, hsuper, rfl, hword⟩
  refine ⟨htable, ?_, ?_⟩
  · intro root rdecl name hroot hnone harray
    obtain ⟨root', hrec⟩ := hcomplete.exists_recorded tree hroot
    obtain rfl := tree.root_unique _ _ ⟨rdecl, hroot, hnone⟩ hrec.isRoot
    obtain ⟨cl, hcl⟩ := hcomplete.exists_layout hroot
    obtain ⟨words, hwords, hholds⟩ := hrec.exists_arrayWords tree names hcl harray
    exact ⟨cl, words, hcl, hwords, hholds⟩
  · intro c d cdecl ddecl m info receiver args f f' code hc hd hsub hm hvirtual hcode
    obtain ⟨ml, cl, target, label, words, _, hml, _, hresolves, _, hholds, _, _, hword⟩ :=
      htable hc hd hsub hm
    obtain ⟨_, operands, passed, enter, _, _, _, _, _, _, henters, _, rfl⟩ :=
      ExprTree.call_run hcode
    rw [Enters, if_neg (by simp [hvirtual])] at henters
    obtain ⟨ml', hml', hdispatch⟩ := henters
    obtain rfl : ml = ml' := Except.ok.inj (hml.symm.trans hml')
    refine ⟨operands ++ passed, enter, ml, target, label, rfl, hdispatch, hml, hresolves, ?_⟩
    intro image i machine r hloads hr hnull hrecord
    have hplace : Word.ofInt ml.entryOffset = .ofInt (ml.slot * wordSize) := ml.ofInt_entryOffset
    have hentry := hloads.mem_eq hholds hword
    rw [← hplace] at hentry
    refine ⟨hentry, _, execFrom_dispatch hdispatch hr hnull ?_⟩
    rw [hrecord]
    exact hentry

theorem tablesResolve_shapes : ∃ L data, shapes.IsClassTree ∧ shapes.RecordNamesDistinct ∧
    shapes.MethodsLinked ∧ compute shapes = .ok (L, data) ∧ TablesResolve shapes L data := by
  obtain ⟨L, data, h⟩ := exists_compute_shapes
  have hmethods : shapes.MethodsLinked := Program.methodsLinked_of_listsMethods (by decide)
  exact ⟨L, data, isClassTree_shapes, recordNamesDistinct_shapes, hmethods, h,
    tablesResolve_of_compute isClassTree_shapes recordNamesDistinct_shapes hmethods h⟩

end Layout

end MipsBackend
