import MipsBackend.Program.Builder
import MipsBackend.Proofs.Hierarchy.Tree
import MipsBackend.Proofs.Source.WellFormed
import MipsBackend.Proofs.Stateful

/-!
# What building changes

Every operation of a builder comes down to a few changes of the program.  `Edit` lists them, each
with all it does and with the conditions under which it is done, and the lemmas behind it say which
edits a successful operation is made of.  What is to be shown of built programs is then shown of
edits.

Nodes are compared by what they show of themselves (`peek`), because most edits change one field of
one node and every invariant reads only a few fields.
-/

namespace MipsBackend

/-! ## Arenas -/

section Arenas

variable {α β : Type} {sort : NodeSort} {arena arena' : Array α} {id other : NodeId sort}
  {a node : α} {f : α → α} {g : α → β}

/-- What a node shows of itself, if there is such a node. -/
def peek (g : α → β) (arena : Array α) (id : NodeId sort) : Option β :=
  arena[id.toNat]?.map g

theorem peek_eq_some_iff {shown : β} :
    peek g arena id = some shown ↔ ∃ node, lookup arena id = .ok node ∧ g node = shown := by
  rw [peek, Option.map_eq_some_iff]
  simp only [lookup_eq_ok_iff]

theorem lookup_eq_ok_iff_peek : lookup arena id = .ok node ↔ peek (·) arena id = some node := by
  simp [peek_eq_some_iff]

theorem peek_of_lookup (h : lookup arena id = .ok node) : peek g arena id = some (g node) :=
  peek_eq_some_iff.2 ⟨node, h, rfl⟩

theorem peek_of_error {fault : Fault} (h : lookup arena id = .error fault) :
    peek g arena id = none := by
  rw [peek, Array.getElem?_eq_none (lookup_eq_error_iff.1 h).1]
  rfl

@[simp] theorem peek_empty : peek g #[] id = none := by
  simp [peek]

theorem peek_nextId (h : nextId arena = .ok id) : peek g arena id = none := by
  rw [peek, toNat_of_nextId h, Array.getElem?_size]
  rfl

theorem peek_push (h : nextId arena = .ok id) :
    peek g (arena.push a) other = if other = id then some (g a) else peek g arena other := by
  simp only [peek, Array.getElem?_push, ← toNat_of_nextId h, NodeId.toNat_inj]
  split <;> rfl

theorem peek_update (h : update arena id f = .ok arena') :
    peek g arena' other =
      if other = id then peek (fun node => g (f node)) arena other else peek g arena other := by
  obtain ⟨node, hnode, rfl⟩ := update_eq_ok_iff.1 h
  by_cases same : other = id
  · subst same
    have hlt := (Array.getElem?_eq_some_iff.1 hnode).1
    rw [if_pos rfl, peek, Array.getElem?_setIfInBounds_self_of_lt hlt, peek, hnode]
    rfl
  · have differs : id.toNat ≠ other.toNat := fun e => same (NodeId.toNat_inj.1 e.symm)
    rw [if_neg same, peek, Array.getElem?_setIfInBounds_ne differs, peek]

/-- A change does not touch what it keeps. -/
theorem peek_update_of_eq (h : update arena id f = .ok arena') (hg : ∀ node, g (f node) = g node) :
    (peek g arena' : NodeId sort → Option β) = peek g arena := by
  funext other
  rw [peek_update h]
  split
  · simp only [peek, hg]
  · rfl

/-- The list that a node shows; a node that does not exist shows none. -/
def peekList (g : α → List β) (arena : Array α) (id : NodeId sort) : List β :=
  (peek g arena id).getD []

section Lists

variable {g : α → List β} {b : β} {more : List β}

theorem mem_peekList :
    b ∈ peekList g arena id ↔ ∃ node, lookup arena id = .ok node ∧ b ∈ g node := by
  cases h : lookup arena id with
  | ok node => simp [peekList, peek_of_lookup h]
  | error fault => simp [peekList, peek_of_error h]

theorem peekList_push (h : nextId arena = .ok id) :
    peekList g (arena.push a) other =
      if other = id then peekList g arena other ++ g a else peekList g arena other := by
  rw [peekList, peekList, peek_push h]
  split
  · rename_i same
    rw [same, peek_nextId h]
    rfl
  · rfl

theorem peekList_update (h : update arena id f = .ok arena')
    (hf : ∀ node, lookup arena id = .ok node → g (f node) = g node ++ more) :
    peekList g arena' other =
      if other = id then peekList g arena other ++ more else peekList g arena other := by
  rw [peekList, peekList, peek_update h]
  split
  · rename_i same
    subst same
    obtain ⟨node, hnode, _⟩ := update_eq_ok_iff.1 h
    rw [← lookup_eq_ok_iff] at hnode
    rw [peek_of_lookup hnode, peek_of_lookup hnode]
    exact hf node hnode
  · rfl

theorem peekList_update_of_eq (h : update arena id f = .ok arena')
    (hg : ∀ node, g (f node) = g node) :
    (peekList g arena' : NodeId sort → List β) = peekList g arena := by
  funext other
  rw [peekList, peek_update_of_eq h hg, peekList]

end Lists

theorem map_update_of_eq (h : update arena id f = .ok arena') (hg : ∀ node, g (f node) = g node) :
    arena'.toList.map g = arena.toList.map g := by
  obtain ⟨node, hnode, rfl⟩ := update_eq_ok_iff.1 h
  refine List.ext_getElem? fun i => ?_
  rw [List.getElem?_map, List.getElem?_map, Array.getElem?_toList, Array.getElem?_toList]
  by_cases same : id.toNat = i
  · subst same
    have hlt := (Array.getElem?_eq_some_iff.1 hnode).1
    rw [Array.getElem?_setIfInBounds_self_of_lt hlt, hnode, Option.map_some, Option.map_some, hg]
  · rw [Array.getElem?_setIfInBounds_ne same]

/-- The node that was pushed last is the one that is changed. -/
theorem update_push (hid : nextId arena = .ok id) (h : update (arena.push a) id f = .ok arena') :
    arena' = arena.push (f a) := by
  obtain ⟨old, hold, rfl⟩ := update_eq_ok_iff.1 h
  rw [toNat_of_nextId hid, Array.getElem?_push_size, Option.some.injEq] at hold
  subst hold
  rw [toNat_of_nextId hid]
  apply Array.toList_inj.1
  simp

/-- The identifiers of consecutive nodes. -/
def idsFrom (start count : Nat) : List (NodeId sort) :=
  (List.range' start count).map NodeId.ofNat

section Consecutive

variable {start count : Nat} (hroom : ∀ i < count, start + i < 2 ^ 32)
include hroom

theorem mem_idsFrom : id ∈ idsFrom start count ↔ start ≤ id.toNat ∧ id.toNat < start + count := by
  rw [idsFrom, List.mem_map]
  constructor
  · rintro ⟨n, hn, rfl⟩
    rw [List.mem_range'_1] at hn
    have hlt := hroom (n - start) (by omega)
    rwa [NodeId.toNat_ofNat (by omega)]
  · intro hid
    exact ⟨id.toNat, List.mem_range'_1.2 hid, NodeId.ofNat_toNat id⟩

theorem nodup_idsFrom : (idsFrom start count : List (NodeId sort)).Nodup := by
  refine (List.nodup_map_iff_inj_on List.nodup_range').2 fun i hi j hj e => ?_
  rw [List.mem_range'_1] at hi hj
  have hi' := hroom (i - start) (by omega)
  have hj' := hroom (j - start) (by omega)
  have htoNat := congrArg NodeId.toNat e
  rwa [NodeId.toNat_ofNat (by omega), NodeId.toNat_ofNat (by omega)] at htoNat

end Consecutive

/-- New nodes that all show the same stand behind the old ones. -/
theorem peek_append {as : List α} {shown : β} (hroom : ∀ i < as.length, arena.size + i < 2 ^ 32)
    (hg : ∀ a ∈ as, g a = shown) :
    peek g (arena ++ as.toArray) other =
      if other ∈ idsFrom arena.size as.length then some shown else peek g arena other := by
  simp only [mem_idsFrom hroom, peek]
  rcases Nat.lt_or_ge other.toNat arena.size with hlt | hge
  · rw [Array.getElem?_append_left hlt, if_neg (by omega)]
  · rw [Array.getElem?_append_right hge, List.getElem?_toArray, Array.getElem?_eq_none hge]
    split
    · rename_i hin
      have hlt : other.toNat - arena.size < as.length := by omega
      rw [List.getElem?_eq_getElem hlt, Option.map_some, hg _ (List.getElem_mem hlt)]
    · rw [List.getElem?_eq_none (by omega)]

/-- Every node of the first arena stands in the second one too, and is related to what it was. -/
def Kept (R : NodeId sort → α → α → Prop) (arena arena' : Array α) : Prop :=
  ∀ id node, lookup arena id = .ok node → ∃ node', lookup arena' id = .ok node' ∧ R id node node'

namespace Kept

variable {R : NodeId sort → α → α → Prop}

theorem trans {arena'' : Array α} (hR : ∀ {id a b c}, R id a b → R id b c → R id a c)
    (h : Kept R arena arena') (h' : Kept R arena' arena'') : Kept R arena arena'' := by
  intro id node hnode
  obtain ⟨node', hnode', hrelated⟩ := h id node hnode
  obtain ⟨node'', hnode'', hrelated'⟩ := h' id node' hnode'
  exact ⟨node'', hnode'', hR hrelated hrelated'⟩

variable (hR : ∀ id node, R id node node)
include hR

theorem refl : Kept R arena arena :=
  fun id node hnode => ⟨node, hnode, hR id node⟩

theorem append (more : Array α) : Kept R arena (arena ++ more) := by
  intro id node hnode
  rw [lookup_eq_ok_iff] at hnode
  refine ⟨node, lookup_eq_ok_iff.2 ?_, hR id node⟩
  rw [Array.getElem?_append_left (Array.getElem?_eq_some_iff.1 hnode).1, hnode]

theorem push : Kept R arena (arena.push a) := by
  rw [Array.push_eq_append]
  exact append hR _

theorem update (h : MipsBackend.update arena id f = .ok arena')
    (hf : ∀ node, lookup arena id = .ok node → R id node (f node)) : Kept R arena arena' := by
  intro other node hnode
  have hpeek : peek (·) arena' other = _ := peek_update h
  by_cases same : other = id
  · subst same
    rw [if_pos rfl, peek_of_lookup hnode] at hpeek
    exact ⟨f node, lookup_eq_ok_iff_peek.2 hpeek, hf node hnode⟩
  · rw [if_neg same, peek_of_lookup hnode] at hpeek
    exact ⟨node, lookup_eq_ok_iff_peek.2 hpeek, hR other node⟩

end Kept

end Arenas

/-! ## Edits -/

/-- The span of one byte. -/
def Span.byte (position : Nat) : Span :=
  .ofEnds (.ofNat position) (.ofNat (position + 1))

/-- The place in the source, if the method has one. -/
def MethodOrigin.spans : MethodOrigin → List Span
  | .runtime => []
  | .user span => [span]

namespace Builder

/-- The builder comes to hold a program, and gives out so many spans. -/
def Becomes (b : Builder) (p : Program) (spent : Nat) (b' : Builder) : Prop :=
  b'.program = p ∧ b'.position.toNat = b.position.toNat + spent

/-- The variables for some formal parameters of a method, with consecutive spans. -/
def formalVars (m : MethodId) : Nat → List (String × Ty) → List VarDecl
  | _, [] => []
  | position, formal :: formals =>
    { name := formal.1, span := .byte position, ty := formal.2, kind := .formal m } ::
      formalVars m (position + 1) formals

theorem length_formalVars (m : MethodId) (position : Nat) (formals : List (String × Ty)) :
    (formalVars m position formals).length = formals.length := by
  induction formals generalizing position with
  | nil => rfl
  | cons formal formals ih => rw [formalVars, List.length_cons, List.length_cons, ih]

theorem kind_formalVars {m : MethodId} {position : Nat} {formals : List (String × Ty)}
    {decl : VarDecl} (h : decl ∈ formalVars m position formals) : decl.kind = .formal m := by
  induction formals generalizing position with
  | nil => exact absurd h List.not_mem_nil
  | cons formal formals ih =>
    rcases List.mem_cons.1 h with rfl | h
    · rfl
    · exact ih h

/-- One change of a program being built. -/
inductive Edit (b b' : Builder) : Prop where
  | class_ {id : ClassId} (name : String) : nextId b.program.classes = .ok id →
      b.Becomes { b.program with
        classes := b.program.classes.push
          { name, span := .byte b.position.toNat, superclass := none, subclasses := [],
            instVars := [], methods := .empty } } 1 b' → Edit b b'
  /-- A class that has no superclass gets one, which must not be one of its descendants. -/
  | link {c s : ClassId} {decl : ClassDecl} {linked classes : Array ClassDecl} :
      b.program.classAt c = .ok decl → decl.superclass = none → ¬ b.program.Descends s c →
      update b.program.classes c (fun d => { d with superclass := some s }) = .ok linked →
      update linked s (fun d => { d with subclasses := d.subclasses ++ [c] }) = .ok classes →
      b.Becomes { b.program with classes } 0 b' → Edit b b'
  | stringClass {c : ClassId} : b.program.hasClass c →
      b.Becomes { b.program with stringClass := some c } 0 b' → Edit b b'
  | field {c : ClassId} {x : VarId} {classes : Array ClassDecl} (name : String) (ty : Ty) :
      nextId b.program.vars = .ok x →
      update b.program.classes c (fun d => { d with instVars := d.instVars ++ [x] }) =
        .ok classes →
      b.Becomes { b.program with
        classes
        vars := b.program.vars.push
          { name, span := .byte b.position.toNat, ty, kind := .instVar c } } 1 b' → Edit b b'
  /-- A method is declared with all its formal parameters.  Its class has no method of that name,
  and it overrides what the class inherits at this time. -/
  | method {c : ClassId} {cdecl : ClassDecl} {id : MethodId} {origin : MethodOrigin}
      {overridden : Option MethodId} {placed : Nat} {classes : Array ClassDecl} (name : String)
      (formals : List (String × Ty)) (returnType : Ty) :
      b.program.inheritedMethod c name = .ok overridden →
      nextId b.program.methods = .ok id →
      (∀ i < formals.length, b.program.vars.size + i < 2 ^ 32) →
      b.program.classAt c = .ok cdecl → cdecl.methods.find? name = none →
      update b.program.classes c (fun d => { d with methods := d.methods.insert name id }) =
        .ok classes →
      origin.spans = (List.range' b.position.toNat placed).map Span.byte →
      b.Becomes { b.program with
        classes
        methods := b.program.methods.push
          { name, origin, owner := c, formals := idsFrom b.program.vars.size formals.length,
            returnType, overridden, body := [], result := none }
        vars := b.program.vars ++
          (formalVars id (b.position.toNat + placed) formals).toArray } (placed + formals.length)
        b' → Edit b b'
  | body {m : MethodId} {methods : Array MethodDecl} (body : List StmtId)
      (result : Option ExprId) :
      update b.program.methods m (fun d => { d with body, result }) = .ok methods →
      b.Becomes { b.program with methods } 0 b' → Edit b b'
  | main (s : StmtId) : b.Becomes { b.program with main := some s } 0 b' → Edit b b'
  | localVar {x : VarId} (name : String) (ty : Ty) (init : ExprId) :
      nextId b.program.vars = .ok x →
      b.Becomes { b.program with
        vars := b.program.vars.push
          { name, span := .byte b.position.toNat, ty, kind := .localVar init } } 1 b' → Edit b b'
  | expr {e : ExprId} (ty : Ty) (kind : ExprKind) : nextId b.program.exprs = .ok e →
      b.Becomes { b.program with
        exprs := b.program.exprs.push { span := .byte b.position.toNat, ty, kind } } 1 b' →
      Edit b b'
  | stmt {s : StmtId} (kind : StmtKind) : nextId b.program.stmts = .ok s →
      b.Becomes { b.program with
        stmts := b.program.stmts.push { span := .byte b.position.toNat, kind } } 1 b' → Edit b b'

/-- Any number of changes. -/
def Edits : Builder → Builder → Prop :=
  Relation.ReflTransGen Edit

end Builder

/-! ## Operations as edits -/

namespace Build

open Builder (formalVars)

variable {b b' : Builder} {u : Unit}

theorem program_run {p : Program} : program.run b = .ok (p, b') ↔ b.program = p ∧ b = b' := by
  simp only [program, run_bind_eq_ok_iff, run_get_eq_ok_iff, run_pure_eq_ok_iff]
  constructor
  · rintro ⟨_, _, ⟨rfl, rfl⟩, rfl, rfl⟩
    exact ⟨rfl, rfl⟩
  · rintro ⟨rfl, rfl⟩
    exact ⟨b, b, ⟨rfl, rfl⟩, rfl, rfl⟩

theorem setProgram_run {p : Program} :
    (setProgram p).run b = .ok (u, b') ↔ b' = { b with program := p } := by
  rw [setProgram, run_modify_eq_ok_iff]

theorem freshSpan_run {span : Span} (h : freshSpan.run b = .ok (span, b')) :
    span = .byte b.position.toNat ∧ b.Becomes b.program 1 b' := by
  simp only [freshSpan, run_bind_eq_ok_iff, run_get_eq_ok_iff] at h
  obtain ⟨_, _, ⟨rfl, rfl⟩, h⟩ := h
  split at h
  · rename_i hroom
    simp only [run_bind_eq_ok_iff, run_set_eq_ok_iff, run_pure_eq_ok_iff] at h
    obtain ⟨_, _, rfl, rfl, rfl⟩ := h
    have hone : (1 : UInt32).toNat = 1 := rfl
    have hnext : (b.position + 1).toNat = b.position.toNat + 1 := by
      rw [UInt32.toNat_add, hone]
      exact Nat.mod_eq_of_lt hroom
    refine ⟨?_, rfl, hnext⟩
    rw [Span.byte, ← hnext, UInt32.ofNat_toNat, UInt32.ofNat_toNat]
  · exact absurd h run_throw_ne_ok

/-- A node is put at the end of its arena, with the next span. -/
theorem addNode_run {α : Type} {sort : NodeSort} {id : NodeId sort} (arena : Program → Array α)
    (place : Span → Program → Program)
    (h : (do
      let span ← freshSpan
      let p ← program
      let id ← nextId (arena p)
      setProgram (place span p)
      return id : Build (NodeId sort)).run b = .ok (id, b')) :
    nextId (arena b.program) = .ok id ∧
      b.Becomes (place (.byte b.position.toNat) b.program) 1 b' := by
  simp only [run_bind_eq_ok_iff, program_run, run_liftM_eq_ok_iff, setProgram_run,
    run_pure_eq_ok_iff] at h
  obtain ⟨span, b₁, hspan, _, _, ⟨rfl, rfl⟩, _, _, ⟨hid, rfl⟩, _, _, rfl, rfl, rfl⟩ := h
  obtain ⟨rfl, hprogram, hposition⟩ := freshSpan_run hspan
  rw [hprogram] at hid ⊢
  exact ⟨hid, rfl, hposition⟩

theorem addVar_run {x : VarId} {name : String} {ty : Ty} {kind : VarKind}
    (h : (addVar name ty kind).run b = .ok (x, b')) :
    nextId b.program.vars = .ok x ∧
      b.Becomes { b.program with
        vars := b.program.vars.push { name, span := .byte b.position.toNat, ty, kind } } 1 b' :=
  addNode_run (·.vars) (fun span p => { p with vars := p.vars.push { name, span, ty, kind } }) h

theorem addExpr_run {e : ExprId} {ty : Ty} {kind : ExprKind}
    (h : (addExpr ty kind).run b = .ok (e, b')) :
    nextId b.program.exprs = .ok e ∧
      b.Becomes { b.program with
        exprs := b.program.exprs.push { span := .byte b.position.toNat, ty, kind } } 1 b' :=
  addNode_run (·.exprs) (fun span p => { p with exprs := p.exprs.push { span, ty, kind } }) h

theorem addExpr_edit {e : ExprId} {ty : Ty} {kind : ExprKind}
    (h : (addExpr ty kind).run b = .ok (e, b')) : b.Edit b' :=
  .expr ty kind (addExpr_run h).1 (addExpr_run h).2

theorem addStmt_run {s : StmtId} {kind : StmtKind} (h : (addStmt kind).run b = .ok (s, b')) :
    nextId b.program.stmts = .ok s ∧
      b.Becomes { b.program with
        stmts := b.program.stmts.push { span := .byte b.position.toNat, kind } } 1 b' :=
  addNode_run (·.stmts) (fun span p => { p with stmts := p.stmts.push { span, kind } }) h

theorem addStmt_edit {s : StmtId} {kind : StmtKind} (h : (addStmt kind).run b = .ok (s, b')) :
    b.Edit b' :=
  .stmt kind (addStmt_run h).1 (addStmt_run h).2

/-! ### Looking up -/

/-- An operation that begins by looking something up in the program. -/
theorem lookup_run {α β : Type} {f : Program → Except Fault α} {next : α → Build β} {r : β}
    (h : (program >>= fun p => liftM (f p) >>= next).run b = .ok (r, b')) :
    ∃ a, f b.program = .ok a ∧ (next a).run b = .ok (r, b') := by
  obtain ⟨_, _, hprogram, h⟩ := run_bind_eq_ok_iff.1 h
  obtain ⟨rfl, rfl⟩ := program_run.1 hprogram
  obtain ⟨a, _, hlookup, h⟩ := run_bind_eq_ok_iff.1 h
  obtain ⟨hf, rfl⟩ := run_liftM_eq_ok_iff.1 hlookup
  exact ⟨a, hf, h⟩

theorem formal_run {m : MethodId} {i : Nat} {x : VarId}
    (h : (formal m i).run b = .ok (x, b')) : b' = b := by
  obtain ⟨_, _, h⟩ := lookup_run h
  dsimp only at h
  split at h
  · exact (run_pure_eq_ok_iff.1 h).2.symm
  · exact absurd h run_throw_ne_ok

theorem index_run {array i e : ExprId} (h : (index array i).run b = .ok (e, b')) :
    ∃ expr elem, b.program.exprAt array = .ok expr ∧ expr.ty = .array elem ∧
      (addExpr elem (.index array i)).run b = .ok (e, b') := by
  obtain ⟨expr, hexpr, h⟩ := lookup_run h
  split at h
  · rename_i elem hty
    exact ⟨expr, elem, hexpr, hty, h⟩
  · exact absurd h run_throw_ne_ok

/-- A string literal gets some type, depending on the classes that are there. -/
theorem str_run {value : String} {e : ExprId} (h : (str value).run b = .ok (e, b')) :
    ∃ ty, (addExpr ty (.str value)).run b = .ok (e, b') := by
  obtain ⟨_, _, hprogram, h⟩ := run_bind_eq_ok_iff.1 h
  obtain ⟨_, rfl⟩ := program_run.1 hprogram
  split at h
  · exact ⟨_, h⟩
  · obtain ⟨_, _, hroot, h⟩ := run_bind_eq_ok_iff.1 h
    obtain ⟨_, rfl⟩ := run_liftM_eq_ok_iff.1 hroot
    exact ⟨_, h⟩

theorem callStmt_run {e : ExprId} {s : StmtId} (h : (callStmt e).run b = .ok (s, b')) :
    (addStmt (.call e)).run b = .ok (s, b') := by
  obtain ⟨_, _, h⟩ := lookup_run h
  split at h
  · exact h
  · exact absurd h run_throw_ne_ok

/-! ### Declarations -/

theorem setSuperclass_run {c s : ClassId} (h : (setSuperclass c s).run b = .ok (u, b')) :
    ∃ decl linked classes, b.program.classAt c = .ok decl ∧ decl.superclass = none ∧
      update b.program.classes c (fun d => { d with superclass := some s }) = .ok linked ∧
      update linked s (fun d => { d with subclasses := d.subclasses ++ [c] }) = .ok classes ∧
      b' = { b with program := { b.program with classes } } := by
  simp only [setSuperclass, run_bind_eq_ok_iff, program_run, run_liftM_eq_ok_iff] at h
  obtain ⟨_, _, ⟨rfl, rfl⟩, decl, _, ⟨hdecl, rfl⟩, h⟩ := h
  split at h
  · exact absurd h run_throw_ne_ok
  · rename_i hnone
    simp only [run_bind_eq_ok_iff, run_liftM_eq_ok_iff, setProgram_run] at h
    obtain ⟨linked, _, ⟨hlinked, rfl⟩, classes, _, ⟨hclasses, rfl⟩, rfl⟩ := h
    exact ⟨decl, linked, classes, hdecl, by simpa using hnone, hlinked, hclasses, rfl⟩

theorem setSuperclass_edit {c s : ClassId} (h : (setSuperclass c s).run b = .ok (u, b'))
    (acyclic : ¬ b.program.Descends s c) : b.Edit b' := by
  obtain ⟨_, _, _, hdecl, hnone, hlinked, hclasses, rfl⟩ := setSuperclass_run h
  exact .link hdecl hnone acyclic hlinked hclasses ⟨rfl, rfl⟩

/-- A class is declared, and then linked if it is to have a superclass. -/
theorem declareClass_run {name : String} {superclass : Option ClassId} {c : ClassId}
    (h : (declareClass name superclass).run b = .ok (c, b')) :
    ∃ b₁, nextId b.program.classes = .ok c ∧
      b.Becomes { b.program with
        classes := b.program.classes.push
          { name, span := .byte b.position.toNat, superclass := none, subclasses := [],
            instVars := [], methods := .empty } } 1 b₁ ∧
      ((superclass = none ∧ b' = b₁) ∨
        ∃ s, superclass = some s ∧ (setSuperclass c s).run b₁ = .ok ((), b')) := by
  simp only [declareClass, run_bind_eq_ok_iff, program_run, run_liftM_eq_ok_iff,
    setProgram_run] at h
  obtain ⟨span, b₀, hspan, _, _, ⟨rfl, rfl⟩, _, _, ⟨hid, rfl⟩, _, _, rfl, h⟩ := h
  obtain ⟨rfl, hprogram, hposition⟩ := freshSpan_run hspan
  rw [hprogram] at hid h
  cases superclass with
  | none =>
    obtain ⟨rfl, rfl⟩ := run_pure_eq_ok_iff.1 h
    refine ⟨_, hid, ?_, .inl ⟨rfl, rfl⟩⟩
    exact ⟨rfl, hposition⟩
  | some s =>
    simp only [run_bind_eq_ok_iff, run_pure_eq_ok_iff] at h
    obtain ⟨_, _, hlink, rfl, rfl⟩ := h
    refine ⟨_, hid, ?_, .inr ⟨s, rfl, hlink⟩⟩
    exact ⟨rfl, hposition⟩

theorem setStringClass_run {c : ClassId} (h : (setStringClass c).run b = .ok (u, b')) :
    b' = { b with program := { b.program with stringClass := some c } } := by
  simp only [setStringClass, run_bind_eq_ok_iff, program_run, setProgram_run] at h
  obtain ⟨_, _, ⟨rfl, rfl⟩, rfl⟩ := h
  rfl

theorem setStringClass_edit {c : ClassId} (h : (setStringClass c).run b = .ok (u, b'))
    (hc : b.program.hasClass c) : b.Edit b' := by
  obtain rfl := setStringClass_run h
  exact .stringClass hc ⟨rfl, rfl⟩

theorem declareField_run {c : ClassId} {name : String} {ty : Ty} {x : VarId}
    (h : (declareField c name ty).run b = .ok (x, b')) :
    ∃ classes, nextId b.program.vars = .ok x ∧
      update b.program.classes c (fun d => { d with instVars := d.instVars ++ [x] }) =
        .ok classes ∧
      b.Becomes { b.program with
        classes
        vars := b.program.vars.push
          { name, span := .byte b.position.toNat, ty, kind := .instVar c } } 1 b' := by
  simp only [declareField, run_bind_eq_ok_iff, program_run, run_liftM_eq_ok_iff, setProgram_run,
    run_pure_eq_ok_iff] at h
  obtain ⟨_, b₁, hvar, _, _, ⟨rfl, rfl⟩, classes, _, ⟨hclasses, rfl⟩, _, _, rfl, rfl, rfl⟩ := h
  obtain ⟨hid, hprogram, hposition⟩ := addVar_run hvar
  rw [hprogram] at hclasses
  refine ⟨classes, hid, hclasses, ?_, hposition⟩
  simp only [hprogram]

theorem declareField_edit {c : ClassId} {name : String} {ty : Ty} {x : VarId}
    (h : (declareField c name ty).run b = .ok (x, b')) : b.Edit b' := by
  obtain ⟨_, hid, hclasses, hbecomes⟩ := declareField_run h
  exact .field name ty hid hclasses hbecomes

theorem declareFormal_run {m : MethodId} {name : String} {ty : Ty}
    (h : (declareFormal m name ty).run b = .ok (u, b')) :
    ∃ x methods, nextId b.program.vars = .ok x ∧
      update b.program.methods m (fun d => { d with formals := d.formals ++ [x] }) =
        .ok methods ∧
      b.Becomes { b.program with
        methods
        vars := b.program.vars.push
          { name, span := .byte b.position.toNat, ty, kind := .formal m } } 1 b' := by
  simp only [declareFormal, run_bind_eq_ok_iff, program_run, run_liftM_eq_ok_iff,
    setProgram_run] at h
  obtain ⟨x, b₁, hvar, _, _, ⟨rfl, rfl⟩, methods, _, ⟨hmethods, rfl⟩, rfl⟩ := h
  obtain ⟨hid, hprogram, hposition⟩ := addVar_run hvar
  rw [hprogram] at hmethods
  refine ⟨x, methods, hid, hmethods, ?_, hposition⟩
  simp only [hprogram]

/-- The formal parameters of a method that has just been declared are added one by one. -/
theorem declareFormals_run {ms : Array MethodDecl} {m : MethodId} {decl : MethodDecl}
    {formals : List (String × Ty)} {u : PUnit} (hm : nextId ms = .ok m)
    (hmethods : b.program.methods = ms.push decl)
    (h : (forIn formals PUnit.unit fun formal _ => do
      declareFormal m formal.1 formal.2
      pure (ForInStep.yield PUnit.unit) : Build PUnit).run b = .ok (u, b')) :
    (∀ i < formals.length, b.program.vars.size + i < 2 ^ 32) ∧
      b.Becomes { b.program with
        methods := ms.push
          { decl with formals := decl.formals ++ idsFrom b.program.vars.size formals.length }
        vars := b.program.vars ++ (formalVars m b.position.toNat formals).toArray } formals.length
        b' := by
  induction formals generalizing b decl with
  | nil =>
    obtain ⟨_, rfl⟩ := run_pure_eq_ok_iff.1 h
    refine ⟨by simp, ?_, rfl⟩
    simp [idsFrom, formalVars, ← hmethods]
  | cons formal formals ih =>
    simp only [List.forIn_cons, run_bind_eq_ok_iff, run_pure_eq_ok_iff] at h
    obtain ⟨_, _, ⟨_, b₁, hformal, rfl, rfl⟩, hrest⟩ := h
    obtain ⟨x, methods, hx, hupdate, hprogram, hposition⟩ := declareFormal_run hformal
    rw [hmethods] at hupdate
    obtain rfl := update_push hm hupdate
    obtain ⟨hroom, hprogram', hposition'⟩ := ih (by rw [hprogram]) hrest
    have hsize : b₁.program.vars.size = b.program.vars.size + 1 := by
      rw [hprogram]
      exact Array.size_push _
    have hfirst : NodeId.ofNat b.program.vars.size = x := by
      rw [← toNat_of_nextId hx, NodeId.ofNat_toNat]
    refine ⟨?_, ?_, ?_⟩
    · intro i hi
      cases i with
      | zero => exact toNat_of_nextId hx ▸ x.toNat_lt
      | succ i =>
        have hi := hroom i (Nat.lt_of_succ_lt_succ hi)
        omega
    · have hids : idsFrom b.program.vars.size (formals.length + 1) =
          x :: idsFrom b₁.program.vars.size formals.length := by
        rw [idsFrom, List.range'_succ, List.map_cons, hfirst, hsize, idsFrom]
      rw [hprogram', List.length_cons, hids, formalVars, ← hposition, hprogram]
      simp
    · rw [hposition', hposition, List.length_cons]
      omega

theorem enterMethod_run {c : ClassId} {name : String} {id : MethodId}
    (h : (enterMethod c name id).run b = .ok (u, b')) :
    ∃ cdecl classes, b.program.classAt c = .ok cdecl ∧ cdecl.methods.find? name = none ∧
      update b.program.classes c (fun d => { d with methods := d.methods.insert name id }) =
        .ok classes ∧ b' = { b with program := { b.program with classes } } := by
  simp only [enterMethod, run_bind_eq_ok_iff, program_run, run_liftM_eq_ok_iff] at h
  obtain ⟨_, _, ⟨rfl, rfl⟩, cdecl, _, ⟨hcdecl, rfl⟩, h⟩ := h
  split at h
  · exact absurd h run_throw_ne_ok
  · rename_i hnone
    simp only [run_bind_eq_ok_iff, run_liftM_eq_ok_iff, setProgram_run] at h
    obtain ⟨classes, _, ⟨hclasses, rfl⟩, rfl⟩ := h
    exact ⟨cdecl, classes, hcdecl, by simpa using hnone, hclasses, rfl⟩

theorem declareMethod_run {origin : MethodOrigin} {c : ClassId} {name : String}
    {formals : List (String × Ty)} {returnType : Ty} {id : MethodId}
    (h : (declareMethod origin c name formals returnType).run b = .ok (id, b')) :
    ∃ overridden cdecl classes, b.program.inheritedMethod c name = .ok overridden ∧
      nextId b.program.methods = .ok id ∧
      (∀ i < formals.length, b.program.vars.size + i < 2 ^ 32) ∧
      b.program.classAt c = .ok cdecl ∧ cdecl.methods.find? name = none ∧
      update b.program.classes c (fun d => { d with methods := d.methods.insert name id }) =
        .ok classes ∧
      b.Becomes { b.program with
        classes
        methods := b.program.methods.push
          { name, origin, owner := c, formals := idsFrom b.program.vars.size formals.length,
            returnType, overridden, body := [], result := none }
        vars := b.program.vars ++ (formalVars id b.position.toNat formals).toArray }
        formals.length b' := by
  simp only [declareMethod, run_bind_eq_ok_iff, program_run, run_liftM_eq_ok_iff, setProgram_run,
    run_pure_eq_ok_iff] at h
  obtain ⟨_, _, ⟨rfl, rfl⟩, overridden, _, ⟨hover, rfl⟩, _, _, ⟨hid, rfl⟩, _, _, rfl, _, b₁,
    hformals, _, _, henter, rfl, rfl⟩ := h
  obtain ⟨hroom, hprogram, hposition⟩ := declareFormals_run hid rfl hformals
  obtain ⟨cdecl, classes, hcdecl, hunused, hclasses, rfl⟩ := enterMethod_run henter
  rw [hprogram] at hcdecl hclasses
  refine ⟨overridden, cdecl, classes, hover, hid, hroom, hcdecl, hunused, hclasses, ?_, hposition⟩
  simp only [hprogram, List.nil_append]

/-- The method's own span, if it has one, is given out before it is declared. -/
theorem declareMethod_edit {b₀ : Builder} {origin : MethodOrigin} {c : ClassId} {name : String}
    {formals : List (String × Ty)} {returnType : Ty} {id : MethodId} (placed : Nat)
    (horigin : origin.spans = (List.range' b₀.position.toNat placed).map Span.byte)
    (hplaced : b₀.Becomes b₀.program placed b)
    (h : (declareMethod origin c name formals returnType).run b = .ok (id, b')) :
    b₀.Edit b' := by
  obtain ⟨_, _, _, hover, hid, hroom, hcdecl, hunused, hclasses, hprogram, hposition⟩ :=
    declareMethod_run h
  obtain ⟨hsame, hspent⟩ := hplaced
  rw [hsame] at hover hid hroom hcdecl hclasses
  refine .method name formals returnType hover hid hroom hcdecl hunused hclasses horigin ⟨?_, ?_⟩
  · simp only [hprogram, hsame, hspent]
  · simp only [hposition, hspent]
    omega

theorem userMethod_edit {c : ClassId} {name : String} {formals : List (String × Ty)}
    {returnType : Ty} {id : MethodId}
    (h : (userMethod c name formals returnType).run b = .ok (id, b')) : b.Edit b' := by
  obtain ⟨span, b₁, hspan, hdeclare⟩ := run_bind_eq_ok_iff.1 h
  obtain ⟨rfl, hspent⟩ := freshSpan_run hspan
  exact declareMethod_edit 1 rfl hspent hdeclare

theorem runtimeMethod_edit {c : ClassId} {name : String} {formals : List (String × Ty)}
    {returnType : Ty} {id : MethodId}
    (h : (runtimeMethod c name formals returnType).run b = .ok (id, b')) : b.Edit b' :=
  declareMethod_edit 0 rfl ⟨rfl, rfl⟩ h

theorem setBody_run {m : MethodId} {body : List StmtId} {result : Option ExprId}
    (h : (setBody m body result).run b = .ok (u, b')) :
    ∃ decl methods, b.program.methodAt m = .ok decl ∧ decl.origin.isRuntime = false ∧
      decl.isVoid = result.isNone ∧
      update b.program.methods m (fun d => { d with body, result }) = .ok methods ∧
      b' = { b with program := { b.program with methods } } := by
  simp only [setBody, run_bind_eq_ok_iff, program_run, run_liftM_eq_ok_iff] at h
  obtain ⟨_, _, ⟨rfl, rfl⟩, decl, _, ⟨hdecl, rfl⟩, h⟩ := h
  split at h
  · exact absurd h run_throw_ne_ok
  · rename_i huser
    split at h
    · exact absurd h run_throw_ne_ok
    · rename_i hresult
      simp only [run_bind_eq_ok_iff, run_liftM_eq_ok_iff, setProgram_run] at h
      obtain ⟨methods, _, ⟨hmethods, rfl⟩, rfl⟩ := h
      exact ⟨decl, methods, hdecl, Bool.eq_false_iff.2 huser, not_not.1 hresult, hmethods, rfl⟩

theorem setBody_edit {m : MethodId} {body : List StmtId} {result : Option ExprId}
    (h : (setBody m body result).run b = .ok (u, b')) : b.Edit b' := by
  obtain ⟨_, _, _, _, _, hmethods, rfl⟩ := setBody_run h
  exact .body body result hmethods ⟨rfl, rfl⟩

theorem setMain_run {s : StmtId} (h : (setMain s).run b = .ok (u, b')) :
    b' = { b with program := { b.program with main := some s } } := by
  simp only [setMain, run_bind_eq_ok_iff, program_run, setProgram_run] at h
  obtain ⟨_, _, ⟨rfl, rfl⟩, rfl⟩ := h
  rfl

theorem setMain_edit {s : StmtId} (h : (setMain s).run b = .ok (u, b')) : b.Edit b' := by
  obtain rfl := setMain_run h
  exact .main s ⟨rfl, rfl⟩

theorem localVar_edits {name : String} {ty : Ty} {init : ExprId} {declared : StmtId × VarId}
    (h : (localVar name ty init).run b = .ok (declared, b')) : b.Edits b' := by
  simp only [localVar, run_bind_eq_ok_iff, run_pure_eq_ok_iff] at h
  obtain ⟨x, b₁, hvar, s, _, hstmt, rfl, rfl⟩ := h
  obtain ⟨hid, hbecomes⟩ := addVar_run hvar
  exact .tail (.single (.localVar name ty init hid hbecomes)) (addStmt_edit hstmt)

theorem closeLoop_run {loop : StmtId} {cond : ExprId} {body : StmtId}
    (h : (closeLoop loop cond body).run b = .ok (u, b')) :
    ∃ stmts, update b.program.stmts loop (fun s => { s with kind := .whileLoop cond body }) =
      .ok stmts ∧ b' = { b with program := { b.program with stmts } } := by
  simp only [closeLoop, run_bind_eq_ok_iff, program_run, run_liftM_eq_ok_iff, setProgram_run] at h
  obtain ⟨_, _, ⟨rfl, rfl⟩, stmts, _, ⟨hstmts, rfl⟩, rfl⟩ := h
  exact ⟨stmts, hstmts, rfl⟩

end Build

end MipsBackend
