import MipsBackend.Proofs.Builder.Nodes
import MipsBackend.Proofs.Layout.Dispatch

/-!
# Links in built programs

The links that a builder keeps are redundant: a class lists its subclasses, its methods and its
instance variables, and each of these names its class.  `Program.Linked` says that the two sides
agree everywhere.

There are four groups of links, `IsClassForest`, `MethodsListed`, `OverridesAbove` and `VarsListed`.
Each has a lemma for every way in which an edit can touch it.  `Linked.edit` puts them together.
-/

namespace MipsBackend

namespace Program

variable {p p' : Program} {c s : ClassId} {m o : MethodId} {x : VarId} {name : String}

/-! ## What nodes say of each other -/

/-- The superclass that a class names, as a list of at most one. -/
def superclassOf (p : Program) : ClassId → List ClassId :=
  peekList (·.superclass.toList) p.classes

/-- The subclasses that a class lists. -/
def subclassesOf (p : Program) : ClassId → List ClassId :=
  peekList (·.subclasses) p.classes

/-- The methods that a class lists, with their names. -/
def entriesOf (p : Program) : ClassId → List (String × MethodId) :=
  peekList (·.methods.entries) p.classes

/-- The name and the class of a method, if there is such a method. -/
def headingOf (p : Program) : MethodId → Option (String × ClassId) :=
  peek (fun decl => (decl.name, decl.owner)) p.methods

/-- The method that a method names as overridden, if there is such a method. -/
def overriddenOf (p : Program) : MethodId → Option (Option MethodId) :=
  peek (·.overridden) p.methods

theorem extends_iff : p.Extends c s ↔ s ∈ p.superclassOf c := by
  simp only [Extends, superclassOf, mem_peekList, Option.mem_toList]
  rfl

theorem hasSubclass_iff : p.HasSubclass s c ↔ c ∈ p.subclassesOf s := by
  rw [HasSubclass, subclassesOf, mem_peekList]
  rfl

/-- A root descends from no other class. -/
theorem not_descends_of_superclassOf (hroot : p.superclassOf s = []) (hne : s ≠ c) :
    ¬ p.Descends s c := by
  intro hdesc
  rcases Relation.ReflTransGen.cases_head hdesc with rfl | ⟨d, hstep, _⟩
  · exact hne rfl
  · rw [extends_iff, hroot] at hstep
    exact absurd hstep List.not_mem_nil

theorem instVarsOf_eq_peekList : p.instVarsOf = peekList (·.instVars) p.classes := by
  funext c
  unfold instVarsOf
  split
  · rename_i hc
    rw [peekList, peek_of_lookup hc, Option.getD_some]
  · rename_i hc
    rw [peekList, peek_of_error hc, Option.getD_none]

theorem formalsOf_eq_peekList : Layout.formalsOf p = peekList (·.formals) p.methods := by
  funext m
  unfold Layout.formalsOf
  split
  · rename_i hm
    rw [peekList, peek_of_lookup hm, Option.getD_some]
  · rename_i hm
    rw [peekList, peek_of_error hm, Option.getD_none]

theorem kindOf_eq_peek : p.kindOf x = peek (·.kind) p.vars x := by
  unfold kindOf
  split
  · rename_i hx
    rw [peek_of_lookup hx]
  · rename_i hx
    rw [peek_of_error hx]

/-! ## Superclasses -/

/-- The two records of the hierarchy agree, and no class is its own ancestor.  There may be several
roots. -/
structure IsClassForest (p : Program) : Prop where
  /-- A class is listed by its superclass and by no other. -/
  mirror : ∀ c s, p.Extends c s ↔ p.HasSubclass s c
  /-- No class lists a subclass twice. -/
  nodup : ∀ c, (p.subclassesOf c).Nodup
  acyclic : ∀ c, ¬ Relation.TransGen p.Extends c c

namespace IsClassForest

variable (forest : p.IsClassForest)
include forest

/-- What changes neither the superclasses nor the subclasses of any class keeps the forest.  A new
class that stands alone changes neither. -/
theorem congr (hup : ∀ c, p'.superclassOf c = p.superclassOf c)
    (hdown : ∀ c, p'.subclassesOf c = p.subclassesOf c) : p'.IsClassForest := by
  have hsame : p'.Extends = p.Extends := by
    funext c s
    rw [eq_iff_iff, extends_iff, extends_iff, hup]
  refine ⟨fun c s => ?_, fun c => ?_, hsame ▸ forest.acyclic⟩
  · rw [hsame, forest.mirror, hasSubclass_iff, hasSubclass_iff, hdown]
  · rw [hdown]
    exact forest.nodup c

omit forest in
/-- With one link more, a way up that was not there before leads through the new link. -/
theorem transGen_of_link {a b : ClassId}
    (h : ∀ a b, p'.Extends a b ↔ p.Extends a b ∨ a = c ∧ b = s)
    (hab : Relation.TransGen p'.Extends a b) :
    Relation.TransGen p.Extends a b ∨ p.Descends a c ∧ p.Descends s b := by
  induction hab with
  | single hstep =>
    rcases (h _ _).1 hstep with hold | ⟨rfl, rfl⟩
    · exact .inl (.single hold)
    · exact .inr ⟨.refl, .refl⟩
  | tail _ hstep ih =>
    rcases (h _ _).1 hstep with hold | ⟨rfl, rfl⟩
    · rcases ih with hup | ⟨hbelow, habove⟩
      · exact .inl (.tail hup hold)
      · exact .inr ⟨hbelow, .tail habove hold⟩
    · rcases ih with hup | ⟨hbelow, _⟩
      · exact .inr ⟨hup.to_reflTransGen, .refl⟩
      · exact .inr ⟨hbelow, .refl⟩

/-- A root may be put below a class that is not one of its descendants. -/
theorem link (hroot : p.superclassOf c = []) (hacyclic : ¬ p.Descends s c)
    (hup : ∀ d, p'.superclassOf d = if d = c then p.superclassOf d ++ [s] else p.superclassOf d)
    (hdown : ∀ d, p'.subclassesOf d =
      if d = s then p.subclassesOf d ++ [c] else p.subclassesOf d) : p'.IsClassForest := by
  have hextends : ∀ a b, p'.Extends a b ↔ p.Extends a b ∨ a = c ∧ b = s := by
    intro a b
    rw [extends_iff, extends_iff, hup]
    by_cases hac : a = c <;> simp [hac]
  have hlists : ∀ a b, p'.HasSubclass a b ↔ p.HasSubclass a b ∨ a = s ∧ b = c := by
    intro a b
    rw [hasSubclass_iff, hasSubclass_iff, hdown]
    by_cases has : a = s <;> simp [has]
  -- A root is not listed by any class yet.
  have hnot : c ∉ p.subclassesOf s := by
    intro hmem
    have hc := extends_iff.1 ((forest.mirror c s).2 (hasSubclass_iff.2 hmem))
    simp [hroot] at hc
  refine ⟨fun a b => ?_, fun d => ?_, fun a ha => ?_⟩
  · rw [hextends, hlists, forest.mirror, and_comm]
  · rw [hdown]
    split
    · rename_i hds
      subst hds
      exact List.nodup_append_comm.1 (List.nodup_cons.2 ⟨hnot, forest.nodup d⟩)
    · exact forest.nodup d
  · rcases transGen_of_link hextends ha with hcycle | ⟨hbelow, habove⟩
    · exact forest.acyclic a hcycle
    · exact hacyclic (habove.trans hbelow)

end IsClassForest

/-! ## Methods -/

/-- A class lists exactly the methods that name it as their class, under their own names. -/
def MethodsListed (p : Program) : Prop :=
  ∀ c name m, (name, m) ∈ p.entriesOf c ↔ p.headingOf m = some (name, c)

theorem MethodsListed.congr (methods : p.MethodsListed)
    (hentries : ∀ c, p'.entriesOf c = p.entriesOf c)
    (hheading : ∀ m, p'.headingOf m = p.headingOf m) : p'.MethodsListed := by
  intro c name m
  rw [hentries, hheading]
  exact methods c name m

theorem MethodsListed.declare (methods : p.MethodsListed) (hnew : p.headingOf m = none)
    (hentries : ∀ d, p'.entriesOf d =
      if d = c then p.entriesOf d ++ [(name, m)] else p.entriesOf d)
    (hheading : ∀ n, p'.headingOf n = if n = m then some (name, c) else p.headingOf n) :
    p'.MethodsListed := by
  intro d other n
  have hold := methods d other n
  rw [hentries, hheading]
  by_cases hn : n = m
  · subst hn
    have hnot : (other, n) ∉ p.entriesOf d := by
      rw [hold, hnew]
      simp
    by_cases hd : d = c
    · simp [hd, hd ▸ hnot, eq_comm]
    · simp [hd, hnot, Ne.symm hd]
  · by_cases hd : d = c
    · simp [hd, hd ▸ hold, hn]
    · simp [hd, hold, hn]

/-- A method overrides a method of its name that a class above its own declares. -/
def OverridesAbove (p : Program) : Prop :=
  ∀ m name c o, p.headingOf m = some (name, c) → p.overriddenOf m = some (some o) →
    ∃ s, p.headingOf o = some (name, s) ∧ Relation.TransGen p.Extends c s

namespace OverridesAbove

variable (overrides : p.OverridesAbove) (hup : ∀ c s, p.Extends c s → p'.Extends c s)
include overrides hup

theorem mono (hheading : p'.headingOf = p.headingOf) (hover : p'.overriddenOf = p.overriddenOf) :
    p'.OverridesAbove := by
  intro m name c o hm ho
  rw [hheading] at hm ⊢
  rw [hover] at ho
  obtain ⟨s, hs, habove⟩ := overrides m name c o hm ho
  exact ⟨s, hs, Relation.TransGen.mono hup _ _ habove⟩

theorem declare {overridden : Option MethodId} (hnew : p.headingOf m = none)
    (hheading : ∀ n, p'.headingOf n = if n = m then some (name, c) else p.headingOf n)
    (hover : ∀ n, p'.overriddenOf n = if n = m then some overridden else p.overriddenOf n)
    (habove : ∀ o, overridden = some o →
      ∃ s, p.headingOf o = some (name, s) ∧ Relation.TransGen p.Extends c s) :
    p'.OverridesAbove := by
  -- A method that is overridden was there before.
  have hkeep : ∀ {o : MethodId} {name s}, p.headingOf o = some (name, s) →
      p'.headingOf o = some (name, s) := by
    intro o name s ho
    rw [hheading, if_neg, ho]
    rintro rfl
    simp [hnew] at ho
  intro n other d o hn ho
  rw [hheading] at hn
  rw [hover] at ho
  by_cases hnm : n = m
  · simp only [hnm, if_true, Option.some.injEq, Prod.mk.injEq] at hn ho
    obtain ⟨rfl, rfl⟩ := hn
    obtain ⟨s, hs, hcs⟩ := habove o ho
    exact ⟨s, hkeep hs, Relation.TransGen.mono hup _ _ hcs⟩
  · rw [if_neg hnm] at hn ho
    obtain ⟨s, hs, hds⟩ := overrides n other d o hn ho
    exact ⟨s, hkeep hs, Relation.TransGen.mono hup _ _ hds⟩

end OverridesAbove

/-- What is found among the ancestors is found in one of them. -/
theorem exists_of_search {α : Type} {lineage : Lineage} {f : ClassId → Except Fault (Option α)}
    {a : α} (h : lineage.search f = .ok (some a)) :
    ∃ d ∈ lineage.ancestors, f d = .ok (some a) := by
  obtain ⟨found, hfound, h⟩ := bind_eq_ok_iff.1 h
  cases found with
  | none =>
    simp only at h
    split at h
    · cases h
    · cases h
  | some b =>
    obtain rfl : a = b := (Option.some.inj (Except.ok.inj h)).symm
    clear h
    generalize lineage.ancestors = ds at hfound
    induction ds with
    | nil => cases hfound
    | cons d ds ih =>
      rw [List.findSomeM?, bind_eq_ok_iff] at hfound
      obtain ⟨first, hfirst, hrest⟩ := hfound
      cases first with
      | none =>
        obtain ⟨d', hd', hf⟩ := ih hrest
        exact ⟨d', List.mem_cons_of_mem d hd', hf⟩
      | some b' =>
        obtain rfl : a = b' := (Option.some.inj (Except.ok.inj hrest)).symm
        exact ⟨d, List.mem_cons_self, hfirst⟩

/-- Whatever the hierarchy looks like, an inherited method is listed by a class above. -/
theorem exists_of_inheritedMethod (h : p.inheritedMethod c name = .ok (some m)) :
    ∃ s, Relation.TransGen p.Extends c s ∧ (name, m) ∈ p.entriesOf s := by
  obtain ⟨s, hs, hown⟩ := exists_of_search h
  refine ⟨s, (transGen_of_mem_lineage hs).1, ?_⟩
  rw [ownMethod, bind_eq_ok_iff] at hown
  obtain ⟨decl, hdecl, hfind⟩ := hown
  exact mem_peekList.2 ⟨decl, hdecl, MethodTable.find?_eq_some_iff.1 (pure_eq_ok_iff.1 hfind).symm⟩

/-! ## Variables -/

/-- Owners of a sort list exactly the variables of their kind, each once. -/
def ListsKind {ι : Type} (p : Program) (own : ι → List VarId) (kind : ι → VarKind) : Prop :=
  ∀ i, (own i).Nodup ∧ ∀ x, x ∈ own i ↔ p.kindOf x = some (kind i)

/-- Classes list their instance variables, and methods their formal parameters. -/
structure VarsListed (p : Program) : Prop where
  instVars : p.ListsKind p.instVarsOf .instVar
  formals : p.ListsKind (Layout.formalsOf p) .formal

/-- New variables of one kind are listed by their owner, if they have one. -/
theorem ListsKind.extend {ι : Type} {own own' : ι → List VarId} {kind : ι → VarKind}
    {xs : List VarId} {added : VarKind} (h : p.ListsKind own kind) (hxs : xs.Nodup)
    (hnew : ∀ x ∈ xs, p.kindOf x = none)
    (hkind : ∀ x, p'.kindOf x = if x ∈ xs then some added else p.kindOf x)
    (hown : ∀ i, own' i = if added = kind i then own i ++ xs else own i) :
    p'.ListsKind own' kind := by
  intro i
  obtain ⟨hnodup, hlisted⟩ := h i
  have hnot : ∀ x ∈ xs, x ∉ own i := by
    intro x hx hmem
    rw [hlisted, hnew x hx] at hmem
    cases hmem
  by_cases hi : added = kind i
  · rw [hown, if_pos hi]
    refine ⟨List.nodup_append.2 ⟨hnodup, hxs, fun x hx y hy e => hnot y hy (e ▸ hx)⟩, fun x => ?_⟩
    rw [List.mem_append, hkind, hlisted]
    by_cases hx : x ∈ xs <;> simp [hx, hi]
  · rw [hown, if_neg hi]
    refine ⟨hnodup, fun x => ?_⟩
    rw [hkind, hlisted]
    by_cases hx : x ∈ xs <;> simp [hx, hi, hnew x]

/-- New variables of one kind are listed by their owner, if they have one. -/
theorem VarsListed.extend {xs : List VarId} (vars : p.VarsListed) (added : VarKind)
    (hxs : xs.Nodup) (hnew : ∀ x ∈ xs, p.kindOf x = none)
    (hkind : ∀ x, p'.kindOf x = if x ∈ xs then some added else p.kindOf x)
    (hclasses : ∀ c, p'.instVarsOf c =
      if added = .instVar c then p.instVarsOf c ++ xs else p.instVarsOf c)
    (hmethods : ∀ m, Layout.formalsOf p' m =
      if added = .formal m then Layout.formalsOf p m ++ xs else Layout.formalsOf p m) :
    p'.VarsListed :=
  ⟨vars.instVars.extend hxs hnew hkind hclasses, vars.formals.extend hxs hnew hkind hmethods⟩

theorem VarsListed.congr (vars : p.VarsListed) (hkind : ∀ x, p'.kindOf x = p.kindOf x)
    (hclasses : ∀ c, p'.instVarsOf c = p.instVarsOf c)
    (hmethods : ∀ m, Layout.formalsOf p' m = Layout.formalsOf p m) : p'.VarsListed := by
  constructor
  · intro c
    simp only [hclasses, hkind]
    exact vars.instVars c
  · intro m
    simp only [hmethods, hkind]
    exact vars.formals m

/-! ## All links -/

/-- The links of a program agree with each other, wherever one is recorded twice. -/
structure Linked (p : Program) : Prop where
  forest : p.IsClassForest
  methods : p.MethodsListed
  overrides : p.OverridesAbove
  vars : p.VarsListed
  stringClass : p.stringClass.all p.hasClass

end Program

namespace Builder

variable {b b' : Builder} (h : b.Edit b')
include h

open Program

theorem Edit.isClassForest (forest : b.program.IsClassForest) : b'.program.IsClassForest := by
  cases h with
  | class_ _ hnew hp =>
    rw [hp.1]
    exact forest.congr (fun d => by simp [superclassOf, peekList_push hnew])
      fun d => by simp [subclassesOf, peekList_push hnew]
  | @link c s decl linked classes hdecl hnone hacyclic hlinked hclasses hp =>
    have hroot : b.program.superclassOf c = [] := by
      rw [superclassOf, peekList, peek_of_lookup hdecl, hnone]
      rfl
    rw [hp.1]
    refine forest.link hroot hacyclic (fun d => ?_) fun d => ?_
    · simp only [superclassOf]
      rw [peekList_update_of_eq hclasses fun _ => rfl]
      refine peekList_update hlinked fun node hnode => ?_
      obtain rfl := Except.ok.inj (hdecl.symm.trans hnode)
      simp [hnone]
    · simp only [subclassesOf]
      rw [peekList_update hclasses fun _ _ => rfl, peekList_update_of_eq hlinked fun _ => rfl]
  | field _ _ _ hclasses hp | method _ _ _ _ _ _ _ _ hclasses _ hp =>
    rw [hp.1]
    exact forest.congr (congrFun (peekList_update_of_eq hclasses fun _ => rfl))
      (congrFun (peekList_update_of_eq hclasses fun _ => rfl))
  | stringClass _ hp | body _ _ _ hp | main _ hp | localVar _ _ _ _ hp | expr _ _ _ hp
  | stmt _ _ hp =>
    rw [hp.1]
    exact forest.congr (fun _ => rfl) fun _ => rfl

theorem Edit.methodsListed (methods : b.program.MethodsListed) : b'.program.MethodsListed := by
  cases h with
  | class_ _ hnew hp =>
    rw [hp.1]
    exact methods.congr (fun d => by simp [entriesOf, peekList_push hnew, MethodTable.empty])
      fun _ => rfl
  | link _ _ _ hlinked hclasses hp =>
    rw [hp.1]
    refine methods.congr (fun d => ?_) fun _ => rfl
    simp only [entriesOf]
    rw [peekList_update_of_eq hclasses fun _ => rfl, peekList_update_of_eq hlinked fun _ => rfl]
  | field _ _ _ hclasses hp =>
    rw [hp.1]
    exact methods.congr (congrFun (peekList_update_of_eq hclasses fun _ => rfl)) fun _ => rfl
  | method _ _ _ _ hnew _ hc hunused hclasses _ hp =>
    rw [hp.1]
    refine methods.declare (peek_nextId hnew) (fun d => ?_) fun n => peek_push hnew
    refine peekList_update hclasses fun node hnode => ?_
    obtain rfl := Except.ok.inj (hc.symm.trans hnode)
    exact MethodTable.entries_insert (MethodTable.find?_eq_none_iff.1 hunused) _
  | body _ _ hmethods hp =>
    rw [hp.1]
    exact methods.congr (fun _ => rfl) (congrFun (peek_update_of_eq hmethods fun _ => rfl))
  | stringClass _ hp | main _ hp | localVar _ _ _ _ hp | expr _ _ _ hp | stmt _ _ hp =>
    rw [hp.1]
    exact methods.congr (fun _ => rfl) fun _ => rfl

theorem Edit.overridesAbove (methods : b.program.MethodsListed)
    (overrides : b.program.OverridesAbove) : b'.program.OverridesAbove := by
  have hup : ∀ c s, b.program.Extends c s → b'.program.Extends c s :=
    fun _ _ hs => h.keeps.1.extends_mono hs
  cases h with
  | body _ _ hmethods hp =>
    refine overrides.mono hup ?_ ?_ <;> rw [hp.1]
    · exact peek_update_of_eq hmethods fun _ => rfl
    · exact peek_update_of_eq hmethods fun _ => rfl
  | @method c _ m _ overridden _ _ name _ _ hover hnew _ _ _ _ _ hp =>
    have hheading : ∀ n, b'.program.headingOf n =
        if n = m then some (name, c) else b.program.headingOf n := by
      rw [hp.1]
      exact fun n => peek_push hnew
    have hnamed : ∀ n, b'.program.overriddenOf n =
        if n = m then some overridden else b.program.overriddenOf n := by
      rw [hp.1]
      exact fun n => peek_push hnew
    refine overrides.declare hup (peek_nextId hnew) hheading hnamed fun o ho => ?_
    obtain ⟨s, hcs, hentry⟩ := exists_of_inheritedMethod (ho ▸ hover)
    exact ⟨s, (methods s name o).1 hentry, hcs⟩
  | class_ _ _ hp | link _ _ _ _ _ hp | stringClass _ hp | field _ _ _ _ hp | main _ hp
  | localVar _ _ _ _ hp | expr _ _ _ hp | stmt _ _ hp =>
    refine overrides.mono hup ?_ ?_ <;> rw [hp.1] <;> rfl

theorem Edit.varsListed (vars : b.program.VarsListed) : b'.program.VarsListed := by
  cases h with
  | class_ _ hnew hp =>
    rw [hp.1]
    refine vars.congr (fun _ => rfl) (fun d => ?_) fun _ => rfl
    simp [instVarsOf_eq_peekList, peekList_push hnew]
  | link _ _ _ hlinked hclasses hp =>
    rw [hp.1]
    refine vars.congr (fun _ => rfl) (fun d => ?_) fun _ => rfl
    simp only [instVarsOf_eq_peekList]
    rw [peekList_update_of_eq hclasses fun _ => rfl, peekList_update_of_eq hlinked fun _ => rfl]
  | @field c x _ _ _ hnew hclasses hp =>
    rw [hp.1]
    refine vars.extend (.instVar c) (List.nodup_singleton x) ?_ (fun y => ?_) (fun d => ?_)
      fun m => ?_
    · simp [kindOf_eq_peek, peek_nextId hnew]
    · simp only [kindOf_eq_peek, peek_push hnew, List.mem_singleton]
    · simp only [instVarsOf_eq_peekList]
      rw [peekList_update hclasses fun _ _ => rfl]
      simp [eq_comm]
    · simp
      rfl
  | @method _ _ m _ _ _ _ _ formals _ _ hnew hroom _ _ hclasses _ hp =>
    rw [hp.1]
    refine vars.extend (.formal m) (nodup_idsFrom hroom) (fun x hx => ?_) (fun x => ?_)
      (fun d => ?_) fun n => ?_
    · rw [kindOf_eq_peek, peek, Array.getElem?_eq_none ((mem_idsFrom hroom).1 hx).1,
        Option.map_none]
    · rw [← length_formalVars m] at hroom ⊢
      simp only [kindOf_eq_peek]
      exact peek_append hroom fun decl hdecl => kind_formalVars hdecl
    · simp only [instVarsOf_eq_peekList]
      rw [peekList_update_of_eq hclasses fun _ => rfl]
      simp
    · simp only [formalsOf_eq_peekList]
      rw [peekList_push hnew]
      simp [eq_comm]
  | body _ _ hmethods hp =>
    rw [hp.1]
    refine vars.congr (fun _ => rfl) (fun d => rfl) fun m => ?_
    simp only [formalsOf_eq_peekList]
    rw [peekList_update_of_eq hmethods fun _ => rfl]
  | @localVar x _ _ init hnew hp =>
    rw [hp.1]
    refine vars.extend (.localVar init) (List.nodup_singleton x) ?_ (fun y => ?_)
      (fun d => ?_) fun m => ?_
    · simp [kindOf_eq_peek, peek_nextId hnew]
    · simp only [kindOf_eq_peek, peek_push hnew, List.mem_singleton]
    · simp
      rfl
    · simp
      rfl
  | stringClass _ hp | main _ hp | expr _ _ _ hp | stmt _ _ hp =>
    rw [hp.1]
    exact vars.congr (fun _ => rfl) (fun _ => rfl) fun _ => rfl

theorem Edit.stringClass_all (strings : b.program.stringClass.all b.program.hasClass) :
    b'.program.stringClass.all b'.program.hasClass := by
  have hkept := h.keeps.1
  have hold : b.program.stringClass.all b'.program.hasClass := by
    cases hstring : b.program.stringClass with
    | none => rfl
    | some c => exact hkept.hasClass_mono (by simpa [hstring] using strings)
  cases h with
  | stringClass hc hp =>
    have hc' := hkept.hasClass_mono hc
    rw [hp.1] at hc' ⊢
    exact hc'
  | class_ _ _ hp | link _ _ _ _ _ hp | field _ _ _ _ hp | method _ _ _ _ _ _ _ _ _ _ hp
  | body _ _ _ hp | main _ hp | localVar _ _ _ _ hp | expr _ _ _ hp | stmt _ _ hp =>
    rw [hp.1] at hold ⊢
    exact hold

/-- Every edit keeps the links in step. -/
theorem Edit.linked (linked : b.program.Linked) : b'.program.Linked :=
  ⟨h.isClassForest linked.forest, h.methodsListed linked.methods,
    h.overridesAbove linked.methods linked.overrides, h.varsListed linked.vars,
    h.stringClass_all linked.stringClass⟩

end Builder

namespace Program

variable {p : Program}

/-- Links do not depend on statements. -/
theorem Linked.withStmts (linked : p.Linked) (stmts : Array Stmt) :
    Linked { p with stmts } where
  forest := linked.forest.congr (fun _ => rfl) fun _ => rfl
  methods := linked.methods.congr (fun _ => rfl) fun _ => rfl
  overrides := linked.overrides.mono (fun _ _ h => h) rfl rfl
  vars := linked.vars.congr (fun _ => rfl) (fun _ => rfl) fun _ => rfl
  stringClass := linked.stringClass

/-- The program without nodes has no links. -/
theorem linked_empty : Linked {} where
  forest := {
    mirror := fun _ _ => by
      simp [extends_iff, hasSubclass_iff, superclassOf, subclassesOf, peekList]
    nodup := fun _ => List.nodup_nil
    acyclic := acyclic_of_lt fun _ _ h => by simp [extends_iff, superclassOf, peekList] at h }
  methods := fun _ _ _ => by simp [entriesOf, headingOf, peekList]
  overrides := fun _ _ _ _ h => by simp [headingOf] at h
  vars := {
    instVars := fun _ =>
      ⟨List.nodup_nil, by simp [instVarsOf_eq_peekList, kindOf_eq_peek, peekList]⟩
    formals := fun _ =>
      ⟨List.nodup_nil, by simp [formalsOf_eq_peekList, kindOf_eq_peek, peekList]⟩ }
  stringClass := rfl

end Program

end MipsBackend
