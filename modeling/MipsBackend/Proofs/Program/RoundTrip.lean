import MipsBackend.Program.Decode
import MipsBackend.Program.Encode
import MipsBackend.Proofs.Json.Parsing
import MipsBackend.Proofs.Json.Shapes

/-!
# Programs as text

A program that is written as JSON is read back as it was.  Only types can nest deeper than the
reader follows, so each part of a program is read back where its types are not too deep, and the
depth of the whole text bounds them all.
-/

namespace MipsBackend

open Json

/-! ## Identifiers, spans and types -/

variable {sort : NodeSort}

theorem NodeId.ofJson?_toJson (id : NodeId sort) : NodeId.ofJson? id.toJson = some id := by
  unfold ofJson? toJson toNat
  rw [uint32?_toNat, Option.map_some]

theorem NodeId.list_ofList (ids : List (NodeId sort)) :
    (Json.ofList NodeId.toJson ids).list NodeId.ofJson? = some ids :=
  Json.list_ofList fun id _ => id.ofJson?_toJson

theorem NodeId.optional_ofOption (id : Option (NodeId sort)) :
    Json.optional NodeId.ofJson? (.ofOption NodeId.toJson id) = some id :=
  Json.optional_ofOption NodeId.ofJson?_toJson (fun _ => by simp [NodeId.toJson]) id

theorem NodeId.optionalField_ofOption (id : Option (NodeId sort)) :
    Json.optionalField NodeId.ofJson? (some (.ofOption NodeId.toJson id)) = some id :=
  NodeId.optional_ofOption id

theorem NodeId.isPlain_toJson (id : NodeId sort) : id.toJson.IsPlain :=
  .integer _

/-- A span is written in order, so reading puts nothing right. -/
theorem Span.ofJson?_toJson (s : Span) : Span.ofJson? s.toJson = some s := by
  unfold Span.ofJson? Span.toJson Json.array?
  rw [Option.bind_eq_bind, Option.bind_some]
  simp only [uint32?_toNat]
  exact congrArg some s.ofEnds_lo_hi

theorem Span.isPlain_toJson (s : Span) : s.toJson.IsPlain :=
  .array _ (by simp [IsPlain.integer])

/-- A type is read back where its text nests no deeper than the levels left to it. -/
theorem Ty.ofJson?_toJson {levels : Nat} {ty : Ty} (h : ty.toJson.depth ≤ levels) :
    Ty.ofJson? levels ty.toJson = some ty := by
  induction ty generalizing levels with
  | int | bool | void | null => simp [Ty.toJson, Json.choice, Json.text, Ty.ofJson?, Ty.ofName?]
  | object c =>
    rw [Ty.toJson, depth_choiceOf] at h
    obtain ⟨levels, rfl⟩ := Nat.exists_eq_add_of_le' (Nat.le_trans (Nat.le_add_left 1 _) h)
    simp [Ty.toJson, Json.choiceOf, Json.ofMembers, Ty.ofJson?, c.ofJson?_toJson]
  | array elem ih =>
    rw [Ty.toJson, depth_choiceOf] at h
    obtain ⟨levels, rfl⟩ := Nat.exists_eq_add_of_le' (Nat.le_trans (Nat.le_add_left 1 _) h)
    simp [Ty.toJson, Json.choiceOf, Json.ofMembers, Ty.ofJson?, ih (Nat.le_of_succ_le_succ h)]

theorem Ty.isPlain_toJson (ty : Ty) : ty.toJson.IsPlain := by
  induction ty with
  | int | bool | void | null => exact .choice _
  | object c => exact .choiceOf _ c.isPlain_toJson
  | array elem ih => exact .choiceOf _ ih

/-! ## Declarations -/

/-- New names are added at the end, each in turn. -/
theorem MethodTable.entries_foldl_insert {bindings : List (String × MethodId)} {t : MethodTable}
    (h : ((t.entries ++ bindings).map Prod.fst).Nodup) :
    (bindings.foldl (fun t b => t.insert b.1 b.2) t).entries = t.entries ++ bindings := by
  induction bindings generalizing t with
  | nil => simp
  | cons binding bindings ih =>
    have fresh : binding.1 ∉ t.names := fun mem => by
      rw [List.map_append, List.map_cons] at h
      exact (List.nodup_append.1 h).2.2 _ mem _ List.mem_cons_self rfl
    have inserted : (t.insert binding.1 binding.2).entries = t.entries ++ [binding] :=
      entries_insert fresh binding.2
    rw [List.foldl_cons, ih (by rwa [inserted, List.append_assoc]), inserted, List.append_assoc,
      List.singleton_append]

theorem MethodTable.ofList_entries (t : MethodTable) : ofList t.entries = t := by
  have entries : (ofList t.entries).entries = t.entries :=
    entries_foldl_insert (t := empty) t.nodup
  cases read : ofList t.entries
  cases t
  rw [read] at entries
  cases entries
  rfl

/-- A table of methods is read back in its order. -/
theorem MethodTable.ofJson?_toJson (t : MethodTable) : MethodTable.ofJson? t.toJson = some t := by
  have bindings : ((t.entries.map fun entry => (entry.1, entry.2.toJson)).map
      fun m => ((some m.1, m.2) : Option String × Json)).mapM (fun member => do
        return (← member.1, ← NodeId.ofJson? member.2)) = some t.entries := by
    rw [List.map_map]
    refine (mapM_map_eq_some (h := id) fun entry _ => ?_).trans (by rw [List.map_id])
    simp [NodeId.ofJson?_toJson]
  unfold MethodTable.ofJson? MethodTable.toJson Json.ofMembers Json.object?
  rw [Option.bind_eq_bind, Option.bind_some, bindings]
  exact congrArg some t.ofList_entries

theorem MethodTable.isPlain_toJson (t : MethodTable) : t.toJson.IsPlain :=
  .ofMembers fun m mem => by
    obtain ⟨entry, -, rfl⟩ := List.mem_map.1 mem
    exact entry.2.isPlain_toJson

-- Here and below no step is left to definitional equality: the kernel would compute the bound of a
-- position, which is 2 ^ 32, in unary.
theorem ClassDecl.ofJson?_toJson (c : ClassDecl) : ClassDecl.ofJson? c.toJson = some c := by
  unfold ClassDecl.ofJson? ClassDecl.toJson
  simp -implicitDefEqProofs [fields?_record, text?_text, Span.ofJson?_toJson,
    NodeId.optionalField_ofOption, NodeId.list_ofList, MethodTable.ofJson?_toJson]

theorem MethodOrigin.ofJson?_toJson (origin : MethodOrigin) :
    MethodOrigin.ofJson? origin.toJson = some origin := by
  unfold MethodOrigin.ofJson? MethodOrigin.toJson
  cases origin with
  | runtime => rfl
  | user span => simp -implicitDefEqProofs [choice?_choiceOf, span.ofJson?_toJson]

theorem MethodDecl.ofJson?_toJson {m : MethodDecl}
    (h : m.returnType.toJson.depth ≤ maxNesting - 3) : MethodDecl.ofJson? m.toJson = some m := by
  unfold MethodDecl.ofJson? MethodDecl.toJson
  simp -implicitDefEqProofs [fields?_record, text?_text, MethodOrigin.ofJson?_toJson,
    NodeId.ofJson?_toJson, NodeId.list_ofList, Ty.ofJson?_toJson h, NodeId.optionalField_ofOption]

theorem VarKind.ofJson?_toJson (kind : VarKind) : VarKind.ofJson? kind.toJson = some kind := by
  unfold VarKind.ofJson? VarKind.toJson
  cases kind with
  | instVar c => simp -implicitDefEqProofs [choice?_choiceOf, c.ofJson?_toJson]
  | formal m => simp -implicitDefEqProofs [choice?_choiceOf, m.ofJson?_toJson]
  | localVar init =>
    simp -implicitDefEqProofs [choice?_choiceOf, fields?_record, init.ofJson?_toJson]

theorem VarDecl.ofJson?_toJson {v : VarDecl} (h : v.ty.toJson.depth ≤ maxNesting - 3) :
    VarDecl.ofJson? v.toJson = some v := by
  unfold VarDecl.ofJson? VarDecl.toJson
  simp -implicitDefEqProofs [fields?_record, text?_text, Span.ofJson?_toJson, Ty.ofJson?_toJson h,
    VarKind.ofJson?_toJson]

/-! ## Statements and expressions -/

theorem StmtKind.ofJson?_toJson (kind : StmtKind) : StmtKind.ofJson? kind.toJson = some kind := by
  unfold StmtKind.ofJson? StmtKind.toJson
  cases kind <;>
    simp -implicitDefEqProofs [choice?_choiceOf, NodeId.ofJson?_toJson, NodeId.list_ofList,
      NodeId.optional_ofOption]

theorem Stmt.ofJson?_toJson (s : Stmt) : Stmt.ofJson? s.toJson = some s := by
  unfold Stmt.ofJson? Stmt.toJson
  simp -implicitDefEqProofs [fields?_record, Span.ofJson?_toJson, StmtKind.ofJson?_toJson]

theorem BinOp.ofJson?_toJson (op : BinOp) : BinOp.ofJson? op.toJson = some op := by
  cases op <;> rfl

/-- The types that the form of an expression names. -/
def ExprKind.types : ExprKind → List Ty
  | .instanceOf _ ty => [ty]
  | .cast ty _ => [ty]
  | .newArray elem _ => [elem]
  | _ => []

theorem ExprKind.ofJson?_toJson {kind : ExprKind}
    (h : ∀ ty ∈ kind.types, ty.toJson.depth ≤ maxNesting - 5) :
    ExprKind.ofJson? kind.toJson = some kind := by
  unfold ExprKind.ofJson? ExprKind.toJson
  cases kind
  case instanceOf operand ty =>
    simp -implicitDefEqProofs [choice?_choiceOf, operand.ofJson?_toJson,
      Ty.ofJson?_toJson (h ty List.mem_cons_self)]
  case cast ty operand =>
    simp -implicitDefEqProofs [choice?_choiceOf, operand.ofJson?_toJson,
      Ty.ofJson?_toJson (h ty List.mem_cons_self)]
  case newArray elem size =>
    simp -implicitDefEqProofs [choice?_choiceOf, size.ofJson?_toJson,
      Ty.ofJson?_toJson (h elem List.mem_cons_self)]
  all_goals
    simp -implicitDefEqProofs [choice?_choice, choice?_choiceOf, NodeId.ofJson?_toJson,
      NodeId.list_ofList, BinOp.ofJson?_toJson, int32?_toInt, text?_text, Json.bool?]

theorem Expr.ofJson?_toJson {e : Expr} (h : e.ty.toJson.depth ≤ maxNesting - 3)
    (types : ∀ ty ∈ e.kind.types, ty.toJson.depth ≤ maxNesting - 5) :
    Expr.ofJson? e.toJson = some e := by
  unfold Expr.ofJson? Expr.toJson
  simp -implicitDefEqProofs [fields?_record, Span.ofJson?_toJson, Ty.ofJson?_toJson h,
    ExprKind.ofJson?_toJson types]

/-! ## Depth -/

theorem MethodDecl.depth_returnType_lt (m : MethodDecl) :
    m.returnType.toJson.depth < m.toJson.depth :=
  depth_lt_record "ret_ty" (by simp)

theorem VarDecl.depth_ty_lt (v : VarDecl) : v.ty.toJson.depth < v.toJson.depth :=
  depth_lt_record "ty" (by simp)

theorem Expr.depth_ty_lt (e : Expr) : e.ty.toJson.depth < e.toJson.depth :=
  depth_lt_record "ty" (by simp)

theorem Expr.depth_kind_lt (e : Expr) : e.kind.toJson.depth < e.toJson.depth :=
  depth_lt_record "kind" (by simp)

/-- A type that an expression names stands in the list of its parts. -/
theorem ExprKind.depth_type_lt {kind : ExprKind} {ty : Ty} (h : ty ∈ kind.types) :
    ty.toJson.depth + 2 ≤ kind.toJson.depth := by
  cases kind
  case instanceOf operand _ | cast _ operand | newArray _ operand =>
    cases List.mem_singleton.1 h
    rw [toJson, depth_choiceOf]
    exact Nat.succ_le_succ (depth_lt_of_mem_items (by simp))
  all_goals cases h

theorem Expr.depth_type_lt {e : Expr} {ty : Ty} (h : ty ∈ e.kind.types) :
    ty.toJson.depth + 3 ≤ e.toJson.depth := by
  have form : e.kind.toJson.depth < e.toJson.depth := e.depth_kind_lt
  have named := ExprKind.depth_type_lt h
  omega

/-! ## Plainness -/

theorem MethodOrigin.isPlain_toJson (origin : MethodOrigin) : origin.toJson.IsPlain := by
  cases origin with
  | runtime => exact .choice _
  | user span => exact .choiceOf _ span.isPlain_toJson

theorem VarKind.isPlain_toJson (kind : VarKind) : kind.toJson.IsPlain := by
  cases kind with
  | instVar c => exact .choiceOf _ c.isPlain_toJson
  | formal m => exact .choiceOf _ m.isPlain_toJson
  | localVar init => exact .choiceOf _ (.ofMembers (by simp [init.isPlain_toJson]))

theorem StmtKind.isPlain_toJson (kind : StmtKind) : kind.toJson.IsPlain := by
  cases kind with
  | block stmts => exact .choiceOf _ (.ofList NodeId.isPlain_toJson _)
  | localVar var => exact .choiceOf _ var.isPlain_toJson
  | call expr => exact .choiceOf _ expr.isPlain_toJson
  | assign target value =>
    exact .choiceOf _ (.array _ (by simp [NodeId.isPlain_toJson]))
  | ifElse cond thenStmt elseStmt =>
    exact .choiceOf _ (.array _ (by
      simp [NodeId.isPlain_toJson, IsPlain.ofOption NodeId.isPlain_toJson]))
  | whileLoop cond body => exact .choiceOf _ (.array _ (by simp [NodeId.isPlain_toJson]))
  | breakFrom loop => exact .choiceOf _ loop.isPlain_toJson

theorem BinOp.isPlain_toJson (op : BinOp) : op.toJson.IsPlain :=
  .choice _

theorem ExprKind.isPlain_toJson (kind : ExprKind) : kind.toJson.IsPlain := by
  cases kind with
  | int value => exact .choiceOf _ (.integer _)
  | str value => exact .choiceOf _ (.text _)
  | bool value => exact .choiceOf _ (.bool _)
  | null | this | super => exact .choice _
  | ident id | not id | arrayLength id | new id => exact .choiceOf _ id.isPlain_toJson
  | binary op lhs rhs =>
    exact .choiceOf _ (.array _ (by simp [BinOp.isPlain_toJson, NodeId.isPlain_toJson]))
  | index array i => exact .choiceOf _ (.array _ (by simp [NodeId.isPlain_toJson]))
  | field object var => exact .choiceOf _ (.array _ (by simp [NodeId.isPlain_toJson]))
  | instanceOf operand ty =>
    exact .choiceOf _ (.array _ (by simp [NodeId.isPlain_toJson, Ty.isPlain_toJson]))
  | cast ty operand =>
    exact .choiceOf _ (.array _ (by simp [NodeId.isPlain_toJson, Ty.isPlain_toJson]))
  | newArray elem size =>
    exact .choiceOf _ (.array _ (by simp [NodeId.isPlain_toJson, Ty.isPlain_toJson]))
  | call receiver method args =>
    exact .choiceOf _ (.array _ (by
      simp [NodeId.isPlain_toJson, IsPlain.ofList NodeId.isPlain_toJson]))

theorem ClassDecl.isPlain_toJson (c : ClassDecl) : c.toJson.IsPlain :=
  .ofMembers (by
    simp [IsPlain.text, Span.isPlain_toJson, IsPlain.ofOption NodeId.isPlain_toJson,
      IsPlain.ofList NodeId.isPlain_toJson, MethodTable.isPlain_toJson])

theorem MethodDecl.isPlain_toJson (m : MethodDecl) : m.toJson.IsPlain :=
  .ofMembers (by
    simp [IsPlain.text, MethodOrigin.isPlain_toJson, NodeId.isPlain_toJson, Ty.isPlain_toJson,
      IsPlain.ofOption NodeId.isPlain_toJson, IsPlain.ofList NodeId.isPlain_toJson])

theorem VarDecl.isPlain_toJson (v : VarDecl) : v.toJson.IsPlain :=
  .ofMembers (by
    simp [IsPlain.text, Span.isPlain_toJson, Ty.isPlain_toJson, VarKind.isPlain_toJson])

theorem Stmt.isPlain_toJson (s : Stmt) : s.toJson.IsPlain :=
  .ofMembers (by simp [Span.isPlain_toJson, StmtKind.isPlain_toJson])

theorem Expr.isPlain_toJson (e : Expr) : e.toJson.IsPlain :=
  .ofMembers (by simp [Span.isPlain_toJson, Ty.isPlain_toJson, ExprKind.isPlain_toJson])

/-! ## Whole programs -/

namespace Program

variable {p : Program}

theorem isPlain_toJson (p : Program) : p.toJson.IsPlain :=
  .ofMembers (by
    simp [IsPlain.ofList ClassDecl.isPlain_toJson, IsPlain.ofList MethodDecl.isPlain_toJson,
      IsPlain.ofList VarDecl.isPlain_toJson, IsPlain.ofList Stmt.isPlain_toJson,
      IsPlain.ofList Expr.isPlain_toJson, IsPlain.ofOption NodeId.isPlain_toJson])

theorem arenaOfJson?_ofList {α : Type} {read : Json → Option α} {write : α → Json} {arena : Array α}
    (h : ∀ a ∈ arena, read (write a) = some a) :
    arenaOfJson? read (.ofList write arena.toList) = some arena := by
  unfold arenaOfJson?
  rw [list_ofList fun a mem => h a (Array.mem_toList_iff.1 mem)]
  rfl

theorem ofJson?_toJson (h : p.toJson.depth ≤ maxNesting) : ofJson? p.toJson = some p := by
  have methods : ∀ m ∈ p.methods, MethodDecl.ofJson? m.toJson = some m := fun m mem => by
    have declared : m.toJson.depth + 2 ≤ p.toJson.depth :=
      depth_add_two_le_record (Array.mem_toList_iff.2 mem) "methods" (by simp)
    have inner := m.depth_returnType_lt
    exact MethodDecl.ofJson?_toJson (by omega)
  have vars : ∀ v ∈ p.vars, VarDecl.ofJson? v.toJson = some v := fun v mem => by
    have declared : v.toJson.depth + 2 ≤ p.toJson.depth :=
      depth_add_two_le_record (Array.mem_toList_iff.2 mem) "vars" (by simp)
    have inner := v.depth_ty_lt
    exact VarDecl.ofJson?_toJson (by omega)
  have exprs : ∀ e ∈ p.exprs, Expr.ofJson? e.toJson = some e := fun e mem => by
    have declared : e.toJson.depth + 2 ≤ p.toJson.depth :=
      depth_add_two_le_record (Array.mem_toList_iff.2 mem) "exprs" (by simp)
    have inner := e.depth_ty_lt
    refine Expr.ofJson?_toJson (by omega) fun ty named => ?_
    have nested := e.depth_type_lt named
    omega
  unfold ofJson? toJson
  simp -implicitDefEqProofs [fields?_record, arenaOfJson?_ofList, ClassDecl.ofJson?_toJson,
    arenaOfJson?_ofList methods, arenaOfJson?_ofList vars, arenaOfJson?_ofList exprs,
    Stmt.ofJson?_toJson, NodeId.optionalField_ofOption]

/-- A program that nests no deeper than the reader follows is read back as it was written, with all
of its arenas, spans, types and tables in order. -/
theorem parse_render_of_depth_le (h : p.toJson.depth ≤ maxNesting) :
    Program.parse p.render = some p := by
  unfold Program.parse render
  rw [p.isPlain_toJson.parse_render]
  exact ofJson?_toJson h

/-- A program with escapes and characters beyond ASCII in its texts, the least integer, nested array
types and a table of methods out of alphabetical order. -/
def lettered : Program where
  classes := #[⟨"Größe", .ofEnds 7 3, none, [], [⟨0⟩], .ofList [("ω", ⟨1⟩), ("α", ⟨0⟩)]⟩]
  methods := #[
    ⟨"α", .user (.ofEnds 10 20), ⟨0⟩, [], .void, none, [⟨0⟩], none⟩,
    ⟨"ω", .runtime, ⟨0⟩, [], .array (.array (.object ⟨0⟩)), some ⟨0⟩, [], none⟩]
  vars := #[⟨"π", .dummy, .array .bool, .instVar ⟨0⟩⟩]
  stmts := #[⟨.dummy, .ifElse ⟨0⟩ ⟨0⟩ none⟩]
  exprs := #[
    ⟨.dummy, .object ⟨0⟩, .str "a \"quote\", a \\, a line\n, \x01 and 𝄞"⟩,
    ⟨.dummy, .int, .int (-2147483648)⟩,
    ⟨.dummy, .array (.array .int), .cast (.array (.array .int)) ⟨0⟩⟩]
  main := some ⟨0⟩

theorem parse_render_lettered :
    lettered.toJson.depth ≤ maxNesting ∧ Program.parse lettered.render = some lettered :=
  ⟨by decide, parse_render_of_depth_le (by decide)⟩

end Program

end MipsBackend
