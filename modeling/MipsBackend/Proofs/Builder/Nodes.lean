import Mathlib.Data.List.Perm.Basic
import MipsBackend.Proofs.Builder.Edits

/-!
# Nodes of built programs

Building only ever adds.  `Program.Keeps` says what becomes of the nodes of a program, and
`Builder.Edit.keeps` that every edit keeps them; the one exception, the loop that takes the place of
a block, is not an edit.

The spans of all nodes that have one are the bytes that the builder has given out, each one once
(`Builder.Traced`).  So no two nodes share a span.
-/

namespace MipsBackend

/-! ## Earlier nodes -/

/-- What may become of a class: it keeps its name and its place and a superclass once it has one,
and its lists grow at the end. -/
structure ClassDecl.GrowsTo (decl decl' : ClassDecl) : Prop where
  name : decl'.name = decl.name
  span : decl'.span = decl.span
  superclass : ∀ s, decl.superclass = some s → decl'.superclass = some s
  subclasses : decl.subclasses <+: decl'.subclasses
  instVars : decl.instVars <+: decl'.instVars
  methods : decl.methods.entries <+: decl'.methods.entries

namespace ClassDecl.GrowsTo

theorem refl (decl : ClassDecl) : decl.GrowsTo decl :=
  ⟨rfl, rfl, fun _ h => h, List.prefix_refl _, List.prefix_refl _, List.prefix_refl _⟩

theorem trans {decl decl' decl'' : ClassDecl} (h : decl.GrowsTo decl') (h' : decl'.GrowsTo decl'') :
    decl.GrowsTo decl'' :=
  ⟨h'.name.trans h.name, h'.span.trans h.span, fun s hs => h'.superclass s (h.superclass s hs),
    h.subclasses.trans h'.subclasses, h.instVars.trans h'.instVars, h.methods.trans h'.methods⟩

end ClassDecl.GrowsTo

/-- What may become of a method: it may get another body and another result. -/
def MethodDecl.RebodiedTo (decl decl' : MethodDecl) : Prop :=
  ∃ body result, decl' = { decl with body, result }

namespace MethodDecl.RebodiedTo

theorem refl (decl : MethodDecl) : decl.RebodiedTo decl :=
  ⟨decl.body, decl.result, rfl⟩

theorem trans {decl decl' decl'' : MethodDecl} (h : decl.RebodiedTo decl')
    (h' : decl'.RebodiedTo decl'') : decl.RebodiedTo decl'' := by
  obtain ⟨_, _, rfl⟩ := h
  obtain ⟨body, result, rfl⟩ := h'
  exact ⟨body, result, rfl⟩

end MethodDecl.RebodiedTo

/-- All classes, methods, variables and expressions are still there under their identifiers.
Variables and expressions have not changed at all. -/
structure Program.Keeps (p p' : Program) : Prop where
  classes : Kept (fun _ : ClassId => ClassDecl.GrowsTo) p.classes p'.classes
  methods : Kept (fun _ : MethodId => MethodDecl.RebodiedTo) p.methods p'.methods
  vars : Kept (fun _ : VarId => Eq) p.vars p'.vars
  exprs : Kept (fun _ : ExprId => Eq) p.exprs p'.exprs

namespace Program.Keeps

variable {p p' p'' : Program}

theorem refl (p : Program) : p.Keeps p :=
  ⟨.refl fun _ => .refl, .refl fun _ => .refl, .refl fun _ _ => rfl, .refl fun _ _ => rfl⟩

theorem trans (h : p.Keeps p') (h' : p'.Keeps p'') : p.Keeps p'' :=
  ⟨h.classes.trans .trans h'.classes, h.methods.trans .trans h'.methods,
    h.vars.trans .trans h'.vars, h.exprs.trans .trans h'.exprs⟩

theorem extends_mono (h : p.Keeps p') {c s : ClassId} (hs : p.Extends c s) : p'.Extends c s := by
  obtain ⟨decl, hdecl, hsuper⟩ := hs
  obtain ⟨decl', hdecl', hgrows⟩ := h.classes c decl hdecl
  exact ⟨decl', hdecl', hgrows.superclass s hsuper⟩

theorem hasClass_mono (h : p.Keeps p') {c : ClassId} (hc : p.hasClass c) : p'.hasClass c := by
  obtain ⟨decl, hdecl⟩ := Program.hasClass_iff.1 hc
  obtain ⟨decl', hdecl', _⟩ := h.classes c decl hdecl
  exact Program.hasClass_iff.2 ⟨decl', hdecl'⟩

end Program.Keeps

namespace Builder

variable {b b' : Builder}

/-- An edit keeps all nodes, and does not touch the statements. -/
theorem Edit.keeps (h : b.Edit b') :
    b.program.Keeps b'.program ∧ Kept (fun _ : StmtId => Eq) b.program.stmts b'.program.stmts := by
  have hsame := Program.Keeps.refl b.program
  have hstmts : Kept (fun _ : StmtId => Eq) b.program.stmts b.program.stmts := .refl fun _ _ => rfl
  cases h with
  | class_ _ _ hp =>
    rw [hp.1]
    exact ⟨{ hsame with classes := .push fun _ => .refl }, hstmts⟩
  | link hc hnone _ hlinked hclasses hp =>
    rw [hp.1]
    refine ⟨{ hsame with classes := ?_ }, hstmts⟩
    refine (Kept.update (fun _ => .refl) hlinked fun decl hdecl => ?_).trans .trans
      (.update (fun _ => .refl) hclasses fun decl _ => ?_)
    · obtain rfl := Except.ok.inj (hc.symm.trans hdecl)
      exact { ClassDecl.GrowsTo.refl _ with superclass := by simp [hnone] }
    · exact { ClassDecl.GrowsTo.refl decl with subclasses := List.prefix_append _ _ }
  | stringClass _ hp =>
    rw [hp.1]
    exact ⟨{ hsame with }, hstmts⟩
  | field _ _ _ hclasses hp =>
    rw [hp.1]
    refine ⟨{ hsame with classes := ?_, vars := .push fun _ _ => rfl }, hstmts⟩
    exact .update (fun _ => .refl) hclasses fun decl _ =>
      { ClassDecl.GrowsTo.refl decl with instVars := List.prefix_append _ _ }
  | method _ _ _ _ _ _ hc hunused hclasses _ hp =>
    rw [hp.1]
    refine ⟨{ hsame with
      classes := ?_, methods := .push fun _ => .refl, vars := .append (fun _ _ => rfl) _ }, hstmts⟩
    refine .update (fun _ => .refl) hclasses fun decl hdecl => ?_
    obtain rfl := Except.ok.inj (hc.symm.trans hdecl)
    refine { ClassDecl.GrowsTo.refl _ with methods := ?_ }
    rw [MethodTable.entries_insert (MethodTable.find?_eq_none_iff.1 hunused)]
    exact List.prefix_append _ _
  | body body result hmethods hp =>
    rw [hp.1]
    refine ⟨{ hsame with methods := ?_ }, hstmts⟩
    exact .update (fun _ => .refl) hmethods fun decl _ => ⟨body, result, rfl⟩
  | main _ hp =>
    rw [hp.1]
    exact ⟨{ hsame with }, hstmts⟩
  | localVar _ _ _ _ hp =>
    rw [hp.1]
    exact ⟨{ hsame with vars := .push fun _ _ => rfl }, hstmts⟩
  | expr _ _ _ hp =>
    rw [hp.1]
    exact ⟨{ hsame with exprs := .push fun _ _ => rfl }, hstmts⟩
  | stmt _ _ hp =>
    rw [hp.1]
    exact ⟨{ hsame with }, .push fun _ _ => rfl⟩

end Builder

/-! ## Spans -/

namespace Span

/-- The span of a byte that can be addressed starts there and ends behind it. -/
theorem ends_byte {n : Nat} (h : n + 1 < 2 ^ 32) :
    (byte n).lo.toNat = n ∧ (byte n).hi.toNat = n + 1 := by
  have hn : n < UInt32.size := Nat.lt_trans (Nat.lt_succ_self n) h
  have hlo := UInt32.toNat_ofNat_of_lt' hn
  have hhi : (UInt32.ofNat (n + 1)).toNat = n + 1 := UInt32.toNat_ofNat_of_lt' h
  have hle : UInt32.ofNat n ≤ UInt32.ofNat (n + 1) := by
    rw [UInt32.le_iff_toNat_le, hlo, hhi]
    exact Nat.le_succ n
  rw [byte, lo_ofEnds, hi_ofEnds, if_pos hle, if_pos hle]
  exact ⟨hlo, hhi⟩

end Span

/-- The spans of all nodes that stand in the source: all but the methods of the runtime library. -/
def Program.spans (p : Program) : List Span :=
  p.classes.toList.map (·.span) ++ (p.methods.toList.map (·.origin.spans)).flatten ++
    p.vars.toList.map (·.span) ++ p.stmts.toList.map (·.span) ++ p.exprs.toList.map (·.span)

namespace Builder

variable {b b' : Builder}

/-- The spans of the nodes are the bytes that have been given out, each one once. -/
def Traced (b : Builder) : Prop :=
  b.program.spans.Perm ((List.range b.position.toNat).map Span.byte)

/-- Spans stay the bytes given out when the new nodes get the next bytes. -/
theorem Traced.extend (h : b.Traced) {spent : Nat}
    (hposition : b'.position.toNat = b.position.toNat + spent)
    (hspans : b'.program.spans.Perm
      (b.program.spans ++ (List.range' b.position.toNat spent).map Span.byte)) : b'.Traced := by
  rw [Traced, hposition, List.range_add, List.map_append]
  rw [List.range'_eq_map_range] at hspans
  exact hspans.trans (h.append (.refl _))

theorem map_span_formalVars (m : MethodId) (position : Nat) (formals : List (String × Ty)) :
    (formalVars m position formals).map (·.span) =
      (List.range' position formals.length).map Span.byte := by
  induction formals generalizing position with
  | nil => rfl
  | cons formal formals ih =>
    rw [formalVars, List.map_cons, ih, List.length_cons, List.range'_succ, List.map_cons]

theorem Edit.traced (h : b.Edit b') (traced : b.Traced) : b'.Traced := by
  cases h with
  | class_ _ _ hp | localVar _ _ _ _ hp | expr _ _ _ hp | stmt _ _ hp =>
    refine traced.extend hp.2 (List.perm_iff_count.2 fun s => ?_)
    simp only [hp.1, Program.spans, Array.toList_push, List.map_append, List.map_cons,
      List.map_nil, List.count_append, List.range'_one]
    omega
  | link hc hnone _ hlinked hclasses hp =>
    refine traced.extend hp.2 ?_
    simp [hp.1, Program.spans, map_update_of_eq hclasses, map_update_of_eq hlinked]
  | stringClass _ hp | main _ hp =>
    refine traced.extend hp.2 ?_
    simp [hp.1, Program.spans]
  | field _ _ _ hclasses hp =>
    have hclassSpans := map_update_of_eq (g := (·.span)) hclasses fun _ => rfl
    refine traced.extend hp.2 (List.perm_iff_count.2 fun s => ?_)
    simp only [hp.1, Program.spans, Array.toList_push, List.map_append, List.map_cons,
      List.map_nil, List.count_append, List.range'_one, hclassSpans]
    omega
  | method _ _ _ _ _ _ _ _ hclasses horigin hp =>
    have hclassSpans := map_update_of_eq (g := (·.span)) hclasses fun _ => rfl
    refine traced.extend hp.2 (List.perm_iff_count.2 fun s => ?_)
    simp only [hp.1, Program.spans, Array.toList_push, Array.toList_append, List.map_append,
      List.map_cons, List.map_nil, List.flatten_append, List.flatten_cons, List.flatten_nil,
      List.append_nil, List.count_append, hclassSpans, map_span_formalVars, horigin,
      ← List.range'_append_1]
    omega
  | body body result hmethods hp =>
    refine traced.extend hp.2 ?_
    simp [hp.1, Program.spans, map_update_of_eq hmethods]

/-- No two nodes share a span, and every span is one byte of the source. -/
theorem Traced.spans_nodup (h : b.Traced) : b.program.spans.Nodup := by
  rw [h.nodup_iff]
  refine (List.nodup_map_iff_inj_on List.nodup_range).2 fun i hi j hj e => ?_
  have hposition := b.position.toNat_lt
  rw [List.mem_range] at hi hj
  have hi' := (Span.ends_byte (n := i) (by omega)).1
  have hj' := (Span.ends_byte (n := j) (by omega)).1
  rw [← hi', e, hj']

theorem Traced.isByte (h : b.Traced) {s : Span} (hs : s ∈ b.program.spans) :
    s.hi.toNat = s.lo.toNat + 1 ∧ s.isDummy = false := by
  obtain ⟨n, hn, rfl⟩ := List.mem_map.1 (h.mem_iff.1 hs)
  have hposition := b.position.toNat_lt
  rw [List.mem_range] at hn
  obtain ⟨hlo, hhi⟩ := Span.ends_byte (n := n) (by omega)
  refine ⟨by rw [hlo, hhi], ?_⟩
  rw [Span.isDummy, beq_eq_false_iff_ne]
  intro hdummy
  rw [hdummy] at hlo hhi
  have : Span.dummy.hi.toNat = 0 := rfl
  omega

end Builder

end MipsBackend
