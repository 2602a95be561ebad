import Mathlib.Data.List.Nodup
import MipsBackend.Layout.Compute
import MipsBackend.Proofs.Stateful

/-!
# Recording entries

The layout pass writes the entries of a layout one by one and never changes one.  `Fills` says which
entries of an arena a part of the pass writes, each of them once, and `LaysOut` says so of the three
arenas of a layout together.  Both compose, so what a loop or a walk writes is the concatenation of
what its steps write.  `GrowsTo` is what later readers need of it: entries stay.
-/

namespace MipsBackend

/-! ## Recording entries -/

/-- Between two states of an arena's entries exactly those of `ids` were written, each once. -/
structure Fills {α : Type} {sort : NodeSort} (ids : List (NodeId sort))
    (entries entries' : Array (Option α)) : Prop where
  size : entries'.size = entries.size
  kept {j : NodeId sort} {w : α} :
    entries[j.toNat]? = some (some w) → entries'[j.toNat]? = some (some w)
  new {j : NodeId sort} {w : α} :
    entries'[j.toNat]? = some (some w) → entries[j.toNat]? = some (some w) ∨ j ∈ ids
  fresh {j : NodeId sort} {w : α} : j ∈ ids → entries[j.toNat]? ≠ some (some w)
  written {j : NodeId sort} : j ∈ ids → ∃ w, entries'[j.toNat]? = some (some w)
  other {i : Nat} : (∀ j ∈ ids, j.toNat ≠ i) → entries'[i]? = entries[i]?
  nodup : ids.Nodup

namespace Fills

variable {α : Type} {sort : NodeSort} {ids ids' : List (NodeId sort)}
  {entries entries' entries'' : Array (Option α)}

theorem refl (entries : Array (Option α)) : Fills ([] : List (NodeId sort)) entries entries where
  size := rfl
  kept h := h
  new h := Or.inl h
  fresh h := absurd h List.not_mem_nil
  written h := absurd h List.not_mem_nil
  other _ := rfl
  nodup := List.nodup_nil

theorem trans (h : Fills ids entries entries') (h' : Fills ids' entries' entries'') :
    Fills (ids ++ ids') entries entries'' where
  size := h'.size.trans h.size
  kept e := h'.kept (h.kept e)
  new e := by
    rcases h'.new e with e | hmem
    · exact (h.new e).imp_right (List.mem_append_left ids')
    · exact Or.inr (List.mem_append_right ids hmem)
  fresh hmem e := by
    rcases List.mem_append.1 hmem with hmem | hmem
    · exact h.fresh hmem e
    · exact h'.fresh hmem (h.kept e)
  written hmem := by
    rcases List.mem_append.1 hmem with hmem | hmem
    · obtain ⟨w, e⟩ := h.written hmem
      exact ⟨w, h'.kept e⟩
    · exact h'.written hmem
  other hi :=
    (h'.other fun j hj => hi j (List.mem_append_right ids hj)).trans
      (h.other fun j hj => hi j (List.mem_append_left ids' hj))
  nodup := by
    refine List.nodup_append.2 ⟨h.nodup, h'.nodup, ?_⟩
    rintro j hj _ hj' rfl
    obtain ⟨w, e⟩ := h.written hj
    exact h'.fresh hj' e

theorem perm (h : Fills ids entries entries') (hperm : ids.Perm ids') :
    Fills ids' entries entries' where
  size := h.size
  kept := h.kept
  new e := (h.new e).imp_right hperm.mem_iff.1
  fresh hmem := h.fresh (hperm.mem_iff.2 hmem)
  written hmem := h.written (hperm.mem_iff.2 hmem)
  other hi := h.other fun j hj => hi j (hperm.mem_iff.1 hj)
  nodup := hperm.nodup_iff.1 h.nodup

/-- Two ways to fill the same entries agree if one keeps what the other wrote. -/
theorem eq_of_kept (h : Fills ids entries entries') (h' : Fills ids entries entries'')
    (hkept : ∀ {j : NodeId sort} {w : α},
      entries'[j.toNat]? = some (some w) → entries''[j.toNat]? = some (some w)) :
    entries' = entries'' := by
  refine Array.ext_getElem? fun i => ?_
  by_cases hi : ∃ j ∈ ids, j.toNat = i
  · obtain ⟨j, hj, rfl⟩ := hi
    obtain ⟨w, hw⟩ := h.written hj
    rw [hw, hkept hw]
  · have hother : ∀ j ∈ ids, j.toNat ≠ i := fun j hj hji => hi ⟨j, hj, hji⟩
    rw [h.other hother, h'.other hother]

end Fills

theorem record_self {α : Type} {sort : NodeSort} {entries entries' : Array (Option α)}
    {id : NodeId sort} {value : α} (h : record entries id value = .ok entries') :
    entries'[id.toNat]? = some (some value) := by
  obtain ⟨hfree, rfl⟩ := record_eq_ok_iff.1 h
  simp [(Array.getElem?_eq_some_iff.1 hfree).1]

/-- Recording an entry adds it and keeps all others. -/
theorem record_fills {α : Type} {sort : NodeSort} {entries entries' : Array (Option α)}
    {id : NodeId sort} {value : α} (h : record entries id value = .ok entries') :
    Fills [id] entries entries' := by
  have hself := record_self h
  obtain ⟨hfree, rfl⟩ := record_eq_ok_iff.1 h
  have hother : ∀ {j : NodeId sort}, j ≠ id →
      (entries.setIfInBounds id.toNat (some value))[j.toNat]? = entries[j.toNat]? := by
    intro j hj
    exact Array.getElem?_setIfInBounds_ne fun e => hj (NodeId.toNat_inj.1 e.symm)
  refine ⟨Array.size_setIfInBounds, fun {j w} e => ?_, fun {j w} e => ?_,
    fun {j w} hmem e => ?_, fun {j} hmem => ?_, fun {i} hi => ?_, List.nodup_singleton id⟩
  · by_cases hj : j = id
    · rw [hj, hfree] at e
      simp at e
    · rw [hother hj]
      exact e
  · by_cases hj : j = id
    · exact Or.inr (List.mem_singleton.2 hj)
    · rw [hother hj] at e
      exact Or.inl e
  · rw [List.mem_singleton.1 hmem, hfree] at e
    simp at e
  · rw [List.mem_singleton.1 hmem]
    exact ⟨value, hself⟩
  · exact Array.getElem?_setIfInBounds_ne (hi id (List.mem_singleton_self id))

/-- The entries of `ids` exist, none of them was written, and none is meant twice. -/
structure Blank {α : Type} {sort : NodeSort} (ids : List (NodeId sort))
    (entries : Array (Option α)) : Prop where
  free {id : NodeId sort} : id ∈ ids → entries[id.toNat]? = some none
  nodup : ids.Nodup

namespace Blank

variable {α : Type} {sort : NodeSort} {ids ids' : List (NodeId sort)}
  {entries entries' : Array (Option α)}

theorem left (h : Blank (ids ++ ids') entries) : Blank ids entries where
  free hmem := h.free (List.mem_append_left ids' hmem)
  nodup := (List.nodup_append.1 h.nodup).1

theorem perm (h : Blank ids entries) (hperm : ids.Perm ids') : Blank ids' entries where
  free hmem := h.free (hperm.mem_iff.2 hmem)
  nodup := hperm.nodup_iff.1 h.nodup

/-- What is not written stays blank. -/
theorem after (h : Blank (ids ++ ids') entries) (hfills : Fills ids entries entries') :
    Blank ids' entries' where
  free {id} hmem := by
    have hfree := h.free (List.mem_append_right ids hmem)
    have hother : id ∉ ids := fun hid => (List.nodup_append.1 h.nodup).2.2 id hid id hmem rfl
    have hlt : id.toNat < entries'.size := by
      rw [hfills.size]
      exact (Array.getElem?_eq_some_iff.1 hfree).1
    cases hentry : entries'[id.toNat] with
    | none => rw [Array.getElem?_eq_getElem hlt, hentry]
    | some w =>
      have hnew : entries'[id.toNat]? = some (some w) := by
        rw [Array.getElem?_eq_getElem hlt, hentry]
      rcases hfills.new hnew with hold | hid
      · rw [hfree] at hold
        cases hold
      · exact absurd hid hother
  nodup := (List.nodup_append.1 h.nodup).2.1

theorem after_none (h : Blank ids entries)
    (hfills : Fills ([] : List (NodeId sort)) entries entries') : Blank ids entries' :=
  after (show Blank ([] ++ ids) entries from h) hfills

theorem after_one {id : NodeId sort} (h : Blank (id :: ids) entries)
    (hfills : Fills [id] entries entries') : Blank ids entries' :=
  after (show Blank ([id] ++ ids) entries from h) hfills

end Blank

/-- What was written was blank before. -/
theorem Fills.blank {α : Type} {sort : NodeSort} {ids : List (NodeId sort)}
    {entries entries' : Array (Option α)} (h : Fills ids entries entries') : Blank ids entries where
  free {id} hmem := by
    obtain ⟨w, hw⟩ := h.written hmem
    have hlt : id.toNat < entries.size := by
      rw [← h.size]
      exact (Array.getElem?_eq_some_iff.1 hw).1
    have hfresh : ∀ w, entries[id.toNat]? ≠ some (some w) := fun _ => h.fresh hmem
    rw [Array.getElem?_eq_getElem hlt] at hfresh ⊢
    cases hentry : entries[id.toNat] with
    | none => rfl
    | some w => exact absurd (congrArg some hentry) (hfresh w)
  nodup := h.nodup

namespace Layout

/-! ## Parts of the pass -/

/-- `l'` has all entries of `l`. -/
structure GrowsTo (l l' : Layout) : Prop where
  classes {id : ClassId} {cl : ClassLayout} : l.classAt id = .ok cl → l'.classAt id = .ok cl
  methods {id : MethodId} {m : MethodLayout} : l.methodAt id = .ok m → l'.methodAt id = .ok m
  vars {id : VarId} {offset : Int} : l.varOffset id = .ok offset → l'.varOffset id = .ok offset

/-- No method stands in slot 0, which is the superclass word. -/
def SlotsPositive (l : Layout) : Prop :=
  ∀ {id m}, l.methodAt id = .ok m → 1 ≤ m.slot

/-- All offsets of variables fit in a word. -/
def OffsetsFit (l : Layout) : Prop :=
  ∀ {x offset}, l.varOffset x = .ok offset → Offset.Fits offset

/-- A part of the pass lays out the given classes, methods and variables, each of them once. -/
structure LaysOut (cs : List ClassId) (ms : List MethodId) (vs : List VarId) (l l' : Layout) :
    Prop where
  classes : Fills cs l.classes l'.classes
  methods : Fills ms l.methods l'.methods
  vars : Fills vs l.vars l'.vars
  slots : l.SlotsPositive → l'.SlotsPositive
  offsets : l.OffsetsFit → l'.OffsetsFit

variable {l l' l'' L : Layout} {p : Program} {cs cs' : List ClassId} {ms ms' : List MethodId}
  {vs vs' : List VarId}

theorem GrowsTo.refl (l : Layout) : l.GrowsTo l :=
  ⟨id, id, id⟩

theorem GrowsTo.trans (h : l.GrowsTo l') (h' : l'.GrowsTo l'') : l.GrowsTo l'' :=
  ⟨fun e => h'.classes (h.classes e), fun e => h'.methods (h.methods e),
    fun e => h'.vars (h.vars e)⟩

namespace LaysOut

theorem refl (l : Layout) : LaysOut [] [] [] l l :=
  ⟨.refl _, .refl _, .refl _, id, id⟩

theorem trans (h : LaysOut cs ms vs l l') (h' : LaysOut cs' ms' vs' l' l'') :
    LaysOut (cs ++ cs') (ms ++ ms') (vs ++ vs') l l'' :=
  ⟨h.classes.trans h'.classes, h.methods.trans h'.methods, h.vars.trans h'.vars,
    fun hl => h'.slots (h.slots hl), fun hl => h'.offsets (h.offsets hl)⟩

theorem perm (h : LaysOut cs ms vs l l') (classes : cs.Perm cs') (methods : ms.Perm ms')
    (vars : vs.Perm vs') : LaysOut cs' ms' vs' l l' :=
  ⟨h.classes.perm classes, h.methods.perm methods, h.vars.perm vars, h.slots, h.offsets⟩

theorem growsTo (h : LaysOut cs ms vs l l') : l.GrowsTo l' where
  classes e := classAt_eq_ok_iff.2 (h.classes.kept (classAt_eq_ok_iff.1 e))
  methods e := methodAt_eq_ok_iff.2 (h.methods.kept (methodAt_eq_ok_iff.1 e))
  vars e := varOffset_eq_ok_iff.2 (h.vars.kept (varOffset_eq_ok_iff.1 e))

/-- Two ways to lay out the same agree if one keeps what the other recorded. -/
theorem eq_of_growsTo (h : LaysOut cs ms vs l l') (h' : LaysOut cs ms vs l l'')
    (hgrows : l'.GrowsTo l'') : l' = l'' := by
  have classes := h.classes.eq_of_kept h'.classes fun e =>
    classAt_eq_ok_iff.1 (hgrows.classes (classAt_eq_ok_iff.2 e))
  have methods := h.methods.eq_of_kept h'.methods fun e =>
    methodAt_eq_ok_iff.1 (hgrows.methods (methodAt_eq_ok_iff.2 e))
  have vars := h.vars.eq_of_kept h'.vars fun e =>
    varOffset_eq_ok_iff.1 (hgrows.vars (varOffset_eq_ok_iff.2 e))
  cases l'
  cases l''
  rw [Layout.mk.injEq]
  exact ⟨classes, methods, vars⟩

end LaysOut

/-- The given classes, methods and variables have yet to be laid out. -/
structure Awaits (cs : List ClassId) (ms : List MethodId) (vs : List VarId) (l : Layout) :
    Prop where
  classes : Blank cs l.classes
  methods : Blank ms l.methods
  vars : Blank vs l.vars

namespace Awaits

theorem left (h : Awaits (cs ++ cs') (ms ++ ms') (vs ++ vs') l) : Awaits cs ms vs l :=
  ⟨h.classes.left, h.methods.left, h.vars.left⟩

theorem after (h : Awaits (cs ++ cs') (ms ++ ms') (vs ++ vs') l) (hlays : LaysOut cs ms vs l l') :
    Awaits cs' ms' vs' l' :=
  ⟨h.classes.after hlays.classes, h.methods.after hlays.methods, h.vars.after hlays.vars⟩

end Awaits

theorem LaysOut.awaits (h : LaysOut cs ms vs l l') : Awaits cs ms vs l :=
  ⟨h.classes.blank, h.methods.blank, h.vars.blank⟩

theorem recordClass_run {id : ClassId} {cl : ClassLayout} {u : Unit}
    (h : (LayoutM.recordClass id cl).run l = .ok (u, l')) :
    LaysOut [id] [] [] l l' ∧ l'.classAt id = .ok cl := by
  simp only [LayoutM.recordClass, run_bind_eq_ok_iff, run_get_eq_ok_iff, run_liftM_eq_ok_iff,
    run_set_eq_ok_iff] at h
  obtain ⟨_, _, ⟨rfl, rfl⟩, classes, _, ⟨hrecord, rfl⟩, rfl⟩ := h
  exact ⟨⟨record_fills hrecord, .refl _, .refl _, fun hl => hl, fun hl => hl⟩,
    classAt_eq_ok_iff.2 (record_self hrecord)⟩

theorem recordMethod_run {id : MethodId} {m : MethodLayout} {u : Unit}
    (h : (LayoutM.recordMethod id m).run l = .ok (u, l'))
    (hslot : l.SlotsPositive → 1 ≤ m.slot) :
    LaysOut [] [id] [] l l' ∧ l'.methodAt id = .ok m := by
  simp only [LayoutM.recordMethod, run_bind_eq_ok_iff, run_get_eq_ok_iff, run_liftM_eq_ok_iff,
    run_set_eq_ok_iff] at h
  obtain ⟨_, _, ⟨rfl, rfl⟩, methods, _, ⟨hrecord, rfl⟩, rfl⟩ := h
  have hfills := record_fills hrecord
  have hself := methodAt_eq_ok_iff (l := { l with methods }).2 (record_self hrecord)
  refine ⟨⟨.refl _, hfills, .refl _, fun hl j found hfound => ?_, fun hl => hl⟩, hself⟩
  by_cases hj : j = id
  · obtain rfl : found = m := Except.ok.inj (hfound.symm.trans (hj ▸ hself))
    exact hslot hl
  · rcases hfills.new (methodAt_eq_ok_iff.1 hfound) with hold | hmem
    · exact hl (methodAt_eq_ok_iff.2 hold)
    · exact absurd (List.mem_singleton.1 hmem) hj

theorem recordVar_run {id : VarId} {offset : Int} {u : Unit}
    (h : (LayoutM.recordVar id offset).run l = .ok (u, l')) (hfits : Offset.Fits offset) :
    LaysOut [] [] [id] l l' ∧ l'.varOffset id = .ok offset := by
  simp only [LayoutM.recordVar, run_bind_eq_ok_iff, run_get_eq_ok_iff, run_liftM_eq_ok_iff,
    run_set_eq_ok_iff] at h
  obtain ⟨_, _, ⟨rfl, rfl⟩, vars, _, ⟨hrecord, rfl⟩, rfl⟩ := h
  have hfills := record_fills hrecord
  have hself := varOffset_eq_ok_iff (l := { l with vars }).2 (record_self hrecord)
  refine ⟨⟨.refl _, .refl _, hfills, fun hl => hl, fun hl j found hfound => ?_⟩, hself⟩
  rcases hfills.new (varOffset_eq_ok_iff.1 hfound) with hold | hmem
  · exact hl (varOffset_eq_ok_iff.2 hold)
  · obtain rfl := List.mem_singleton.1 hmem
    obtain rfl : found = offset := Except.ok.inj (hfound.symm.trans hself)
    exact hfits

theorem record_eq_ok {α : Type} {sort : NodeSort} {entries : Array (Option α)} {id : NodeId sort}
    {value : α} (h : entries[id.toNat]? = some none) :
    record entries id value = .ok (entries.setIfInBounds id.toNat (some value)) :=
  record_eq_ok_iff.2 ⟨h, rfl⟩

theorem succeeds_recordClass {id : ClassId} {cl : ClassLayout}
    (h : l.classes[id.toNat]? = some none) :
    Succeeds (LayoutM.recordClass id cl) l fun _ _ => True := by
  simp only [LayoutM.recordClass, succeeds_bind_iff, succeeds_get_iff, succeeds_liftM_iff,
    succeeds_set_iff]
  exact ⟨_, record_eq_ok h, trivial⟩

theorem succeeds_recordMethod {id : MethodId} {m : MethodLayout}
    (h : l.methods[id.toNat]? = some none) :
    Succeeds (LayoutM.recordMethod id m) l fun _ _ => True := by
  simp only [LayoutM.recordMethod, succeeds_bind_iff, succeeds_get_iff, succeeds_liftM_iff,
    succeeds_set_iff]
  exact ⟨_, record_eq_ok h, trivial⟩

theorem succeeds_recordVar {id : VarId} {offset : Int} (h : l.vars[id.toNat]? = some none)
    (hfits : Offset.Fits offset) :
    Succeeds (LayoutM.recordVar id offset) l fun _ l' => LaysOut [] [] [id] l l' := by
  have hrecord : Succeeds (LayoutM.recordVar id offset) l fun _ _ => True := by
    simp only [LayoutM.recordVar, succeeds_bind_iff, succeeds_get_iff, succeeds_liftM_iff,
      succeeds_set_iff]
    exact ⟨_, record_eq_ok h, trivial⟩
  exact hrecord.of_run fun _ _ hrun _ => (recordVar_run hrun hfits).1

end Layout

end MipsBackend
