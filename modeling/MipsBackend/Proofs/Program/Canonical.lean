import MipsBackend.Proofs.Program.RoundTrip

/-!
# The canonical form of a text

A text that the reader accepts may be spelled in many ways: fields in any order and among others,
records as arrays, names of alternatives as objects, ends of spans swapped, names of methods
repeated.  What is read from it has one spelling, the one that is written.  That this is accepted
again needs a bound on its depth.  Only types have no fixed depth, and the reader counts the levels
of a type by the same constructors as the writer spends on it, so the text that is written nests no
deeper than the reader follows (`Program.depth_toJson_le`), however the type was spelled.
-/

namespace MipsBackend

open Json

variable {value : Json}

/-! ## Depth of written data -/

namespace Json

variable {bound : Nat}

theorem depth_array_le {items : List Json} (h : ∀ item ∈ items, item.depth ≤ bound) :
    (array items).depth ≤ bound + 1 := by
  rw [depth]
  induction items with
  | nil => exact Nat.le_add_left 1 bound
  | cons item items ih =>
    rw [List.forall_mem_cons] at h
    have hrest := ih h.2
    rw [itemsDepth]
    omega

theorem depth_ofMembers_le {members : List (String × Json)} (h : ∀ m ∈ members, m.2.depth ≤ bound) :
    (ofMembers members).depth ≤ bound + 1 := by
  rw [ofMembers, depth]
  induction members with
  | nil => exact Nat.le_add_left 1 bound
  | cons m members ih =>
    rw [List.forall_mem_cons] at h
    have hrest := ih h.2
    rw [List.map_cons, membersDepth]
    omega

theorem depth_record_le {fields : List (String × Json)}
    (h : ∀ field ∈ fields, field.2.depth ≤ bound) : (record fields).depth ≤ bound + 1 :=
  depth_ofMembers_le h

theorem depth_ofList_le {α : Type} {write : α → Json} {items : List α}
    (h : ∀ a ∈ items, (write a).depth ≤ bound) : (ofList write items).depth ≤ bound + 1 :=
  depth_array_le (List.forall_mem_map.2 h)

/-- What holds of all that a sequence can read, by the parts that it read before. -/
theorem forall_read_bind {α β : Type} {read : Option α} {next : α → Option β} {post : β → Prop}
    (h : ∀ a, read = some a → ∀ b, next a = some b → post b) :
    ∀ b, read >>= next = some b → post b := by
  intro b hb
  obtain ⟨a, ha, hb⟩ := Option.bind_eq_some_iff.1 hb
  exact h a ha b hb

/-- The items of a list were read one by one. -/
theorem forall_read_mapM {α : Type} {read : Json → Option α} {post : α → Prop}
    (h : ∀ value a, read value = some a → post a) (values : List Json) :
    ∀ items, values.mapM read = some items → ∀ a ∈ items, post a := by
  induction values with
  | nil =>
    rintro _ ⟨⟩
    simp
  | cons value values ih =>
    rw [List.mapM_cons]
    refine forall_read_bind fun first hfirst => forall_read_bind fun rest hrest => ?_
    rintro _ ⟨⟩
    exact List.forall_mem_cons.2 ⟨h value first hfirst, ih rest hrest⟩

end Json

theorem NodeId.depth_toJson {sort : NodeSort} (id : NodeId sort) : id.toJson.depth = 0 :=
  rfl

theorem NodeId.depth_ofOption {sort : NodeSort} (id : Option (NodeId sort)) :
    (Json.ofOption NodeId.toJson id).depth = 0 := by
  cases id <;> rfl

theorem NodeId.depth_ofList_le {sort : NodeSort} (ids : List (NodeId sort)) :
    (Json.ofList NodeId.toJson ids).depth ≤ 1 :=
  Json.depth_ofList_le fun _ _ => Nat.le_refl 0

theorem Span.depth_toJson (s : Span) : s.toJson.depth = 1 :=
  rfl

/-! ## Types -/

/-- The reader takes one level for each constructor, however the type is spelled. -/
theorem Ty.depth_toJson_le {levels : Nat} {ty : Ty} (h : Ty.ofJson? levels value = some ty) :
    ty.toJson.depth ≤ levels := by
  have hname : ∀ {name : String} {ty : Ty}, ofName? name = some ty → ty.toJson.depth = 0 := by
    intro name ty h
    unfold ofName? at h
    split at h
    all_goals cases h
    all_goals rfl
  fun_induction Ty.ofJson? levels value generalizing ty with
  | case1 levels name => exact (hname h).trans_le (Nat.zero_le levels)
  | case2 levels content =>
    obtain ⟨c, -, rfl⟩ := Option.map_eq_some_iff.1 h
    rw [toJson, depth_choiceOf, NodeId.depth_toJson]
    omega
  | case3 levels content ih =>
    obtain ⟨elem, helem, rfl⟩ := Option.map_eq_some_iff.1 h
    rw [toJson, depth_choiceOf]
    exact Nat.succ_le_succ (ih helem)
  | case4 levels name => exact (hname h).trans_le (Nat.zero_le _)
  | case5 => cases h

/-! ## Declarations -/

theorem Json.depth_text (s : String) : (Json.text s).depth = 0 :=
  rfl

theorem ClassDecl.depth_toJson_le (c : ClassDecl) : c.toJson.depth ≤ 2 := by
  have hmethods : c.methods.toJson.depth ≤ 1 :=
    depth_ofMembers_le fun m hm => by
      obtain ⟨entry, -, rfl⟩ := List.mem_map.1 hm
      exact Nat.le_refl 0
  refine depth_record_le ?_
  simp [Json.depth_text, c.span.depth_toJson, NodeId.depth_ofOption, NodeId.depth_ofList_le,
    hmethods]

/-- The type in a declaration that was read keeps to the levels that were left to it. -/
theorem MethodDecl.depth_returnType_le :
    ∀ m, MethodDecl.ofJson? value = some m → m.returnType.toJson.depth ≤ maxNesting - 3 := by
  unfold MethodDecl.ofJson?
  refine forall_read_bind fun fields _ => ?_
  split
  · repeat refine forall_read_bind fun _ _ => ?_
    rintro _ ⟨⟩
    exact Ty.depth_toJson_le (by assumption)
  · nofun

theorem VarDecl.depth_ty_le :
    ∀ v, VarDecl.ofJson? value = some v → v.ty.toJson.depth ≤ maxNesting - 3 := by
  unfold VarDecl.ofJson?
  refine forall_read_bind fun fields _ => ?_
  split
  · repeat refine forall_read_bind fun _ _ => ?_
    rintro _ ⟨⟩
    exact Ty.depth_toJson_le (by assumption)
  · nofun

theorem ExprKind.depth_types_le :
    ∀ kind, ExprKind.ofJson? value = some kind →
      ∀ ty ∈ kind.types, ty.toJson.depth ≤ maxNesting - 5 := by
  unfold ExprKind.ofJson?
  refine forall_read_bind fun chosen _ => ?_
  split
  case h_18 => nofun
  all_goals
    repeat refine forall_read_bind fun _ _ => ?_
    rintro _ ⟨⟩
    simp only [ExprKind.types, List.not_mem_nil, List.forall_mem_singleton, false_implies,
      implies_true]
  all_goals exact Ty.depth_toJson_le (by assumption)

theorem Expr.depth_types_le :
    ∀ e, Expr.ofJson? value = some e → e.ty.toJson.depth ≤ maxNesting - 3 ∧
      ∀ ty ∈ e.kind.types, ty.toJson.depth ≤ maxNesting - 5 := by
  unfold Expr.ofJson?
  refine forall_read_bind fun fields _ => ?_
  split
  · repeat refine forall_read_bind fun _ _ => ?_
    rintro _ ⟨⟩
    exact ⟨Ty.depth_toJson_le (by assumption), ExprKind.depth_types_le _ (by assumption)⟩
  · nofun

theorem MethodDecl.depth_toJson_le {m : MethodDecl}
    (h : m.returnType.toJson.depth ≤ maxNesting - 3) : m.toJson.depth ≤ maxNesting - 2 := by
  have horigin : m.origin.toJson.depth ≤ 2 := by
    cases m.origin with
    | runtime => exact Nat.zero_le 2
    | user span => rw [MethodOrigin.toJson, depth_choiceOf, span.depth_toJson]
  have hformals := NodeId.depth_ofList_le m.formals
  have hbody := NodeId.depth_ofList_le m.body
  refine @depth_record_le (maxNesting - 3) _ ?_
  simp [Json.depth_text, NodeId.depth_toJson, NodeId.depth_ofOption, h]
  rw [maxNesting]
  omega

theorem VarDecl.depth_toJson_le {v : VarDecl} (h : v.ty.toJson.depth ≤ maxNesting - 3) :
    v.toJson.depth ≤ maxNesting - 2 := by
  have hkind : v.kind.toJson.depth ≤ 2 := by
    cases v.kind with
    | instVar c => exact Nat.le_succ 1
    | formal m => exact Nat.le_succ 1
    | localVar init => exact Nat.le_refl 2
  refine @depth_record_le (maxNesting - 3) _ ?_
  simp [Json.depth_text, v.span.depth_toJson, h]
  rw [maxNesting]
  omega

/-! ## Statements and expressions -/

theorem Stmt.depth_toJson_le (s : Stmt) : s.toJson.depth ≤ 3 := by
  have hkind : s.kind.toJson.depth ≤ 2 := by
    cases s.kind with
    | block stmts =>
      rw [StmtKind.toJson, depth_choiceOf]
      exact Nat.succ_le_succ (NodeId.depth_ofList_le stmts)
    | localVar | call | breakFrom => exact Nat.le_succ 1
    | assign | whileLoop => exact Nat.le_refl 2
    | ifElse cond thenStmt elseStmt =>
      simp [StmtKind.toJson, depth_choiceOf, depth, itemsDepth, NodeId.depth_toJson,
        NodeId.depth_ofOption]
  refine depth_record_le ?_
  simp [s.span.depth_toJson, hkind]

theorem ExprKind.depth_toJson_le {kind : ExprKind}
    (h : ∀ ty ∈ kind.types, ty.toJson.depth ≤ maxNesting - 5) :
    kind.toJson.depth ≤ maxNesting - 3 := by
  rw [maxNesting] at h ⊢
  cases kind
  case instanceOf operand ty | cast ty operand | newArray ty operand =>
    have hty := h ty List.mem_cons_self
    simp only [toJson, depth_choiceOf, depth, itemsDepth, NodeId.depth_toJson]
    omega
  case call receiver method args =>
    have hargs := NodeId.depth_ofList_le args
    simp only [toJson, depth_choiceOf, depth, itemsDepth, NodeId.depth_toJson]
    omega
  case binary op lhs rhs =>
    have hop : op.toJson.depth = 0 := rfl
    simp only [toJson, depth_choiceOf, depth, itemsDepth, NodeId.depth_toJson, hop]
    omega
  all_goals
    simp [toJson, depth_choiceOf, depth, itemsDepth, NodeId.depth_toJson, Json.depth_text,
      Json.choice]

theorem Expr.depth_toJson_le {e : Expr} (h : e.ty.toJson.depth ≤ maxNesting - 3)
    (types : ∀ ty ∈ e.kind.types, ty.toJson.depth ≤ maxNesting - 5) :
    e.toJson.depth ≤ maxNesting - 2 := by
  have hkind := ExprKind.depth_toJson_le types
  refine @depth_record_le (maxNesting - 3) _ ?_
  simp [e.span.depth_toJson, h, hkind]
  rw [maxNesting]
  omega

/-! ## Whole programs -/

namespace Program

variable {p : Program} {text : String}

theorem forall_read_arena {α : Type} {read : Json → Option α} {post : α → Prop}
    (h : ∀ value a, read value = some a → post a) :
    ∀ arena, arenaOfJson? read value = some arena → ∀ a ∈ arena.toList, post a := by
  refine forall_read_bind fun items hitems => ?_
  rintro _ ⟨⟩
  obtain ⟨values, -, hvalues⟩ := Option.bind_eq_some_iff.1 hitems
  exact forall_read_mapM h values items hvalues

/-- The text of a program that was read nests no deeper than the reader follows. -/
theorem depth_toJson_le : ∀ p, ofJson? value = some p → p.toJson.depth ≤ maxNesting := by
  unfold ofJson?
  refine forall_read_bind fun fields _ => ?_
  split
  case h_2 => nofun
  refine forall_read_bind fun _ _ => forall_read_bind fun classes _ => ?_
  refine forall_read_bind fun _ _ => forall_read_bind fun methods hmethods => ?_
  refine forall_read_bind fun _ _ => forall_read_bind fun vars hvars => ?_
  refine forall_read_bind fun _ _ => forall_read_bind fun stmts _ => ?_
  refine forall_read_bind fun _ _ => forall_read_bind fun exprs hexprs => ?_
  refine forall_read_bind fun main _ => forall_read_bind fun stringClass _ => ?_
  rintro _ ⟨⟩
  have hclasses : (ofList ClassDecl.toJson classes.toList).depth ≤ 2 + 1 :=
    depth_ofList_le fun c _ => c.depth_toJson_le
  have hmethods : (ofList MethodDecl.toJson methods.toList).depth ≤ maxNesting - 2 + 1 :=
    depth_ofList_le (forall_read_arena
      (fun _ m h => MethodDecl.depth_toJson_le (MethodDecl.depth_returnType_le m h)) _ hmethods)
  have hvars : (ofList VarDecl.toJson vars.toList).depth ≤ maxNesting - 2 + 1 :=
    depth_ofList_le (forall_read_arena
      (fun _ v h => VarDecl.depth_toJson_le (VarDecl.depth_ty_le v h)) _ hvars)
  have hstmts : (ofList Stmt.toJson stmts.toList).depth ≤ 3 + 1 :=
    depth_ofList_le fun s _ => s.depth_toJson_le
  have hexprs : (ofList Expr.toJson exprs.toList).depth ≤ maxNesting - 2 + 1 :=
    depth_ofList_le (forall_read_arena (fun _ e h => by
      obtain ⟨hty, htypes⟩ := Expr.depth_types_le e h
      exact Expr.depth_toJson_le hty htypes) _ hexprs)
  refine @depth_record_le (maxNesting - 1) _ ?_
  simp only [List.forall_mem_cons, NodeId.depth_ofOption]
  rw [maxNesting] at *
  simp
  omega

/-- The canonical form of a text: what is written for the program that it spells. -/
def canonical? (text : String) : Option String :=
  (parse text).map render

/-- Every text that is accepted has a canonical form, which nests no deeper than the reader follows,
is accepted for the same program and is its own canonical form. -/
theorem canonical_of_parse (h : parse text = some p) :
    p.toJson.depth ≤ maxNesting ∧ canonical? text = some p.render ∧ parse p.render = some p ∧
      canonical? p.render = some p.render := by
  obtain ⟨value, -, hread⟩ := Option.bind_eq_some_iff.1 h
  have hdepth : p.toJson.depth ≤ maxNesting := depth_toJson_le p hread
  have hagain : parse p.render = some p := by
    unfold parse render
    rw [p.isPlain_toJson.parse_render]
    exact ofJson?_toJson hdepth
  refine ⟨hdepth, ?_, hagain, ?_⟩
  · rw [canonical?, h, Option.map_some]
  · rw [canonical?, hagain, Option.map_some]

/-- A text with fields out of order and others among them, records as arrays, names of alternatives
as objects, optional fields left out, the ends of a span swapped and a name of a method repeated. -/
def respelled : String :=
  "\x7b\"notes\": [[[]]], \"methods\": [
    [\"f\", \x7b\"Runtime\": null\x7d, 0, [],
     \x7b\"Array\": \x7b\"Int\": null\x7d\x7d, null, [], null],
    \x7b\"ret_ty\": \"Void\", \"class\": 0, \"formals\": [], \"body\": [], \"name\": \"g\",
     \"origin\": \x7b\"User\": [9, 4]\x7d\x7d],
    \"classes\": [\x7b\"methods\": \x7b\"f\": 1, \"g\": 1, \"f\": 0\x7d,
      \"span\": [0, 0], \"name\": \"C\", \"inst_vars\": [], \"subclasses\": []\x7d],
    \"vars\": [\x7b\"kind\": \x7b\"Local\": [0]\x7d,
      \"ty\": \"Bool\", \"span\": [0, 0], \"name\": \"v\"\x7d],
    \"stmts\": [], \"exprs\": [[[0, 0], \"Null\", \x7b\"Null\": null\x7d]]\x7d"

/-- What `respelled` spells. -/
def spelled : Program where
  classes := #[⟨"C", .dummy, none, [], [], .ofList [("f", ⟨0⟩), ("g", ⟨1⟩)]⟩]
  methods := #[
    ⟨"f", .runtime, ⟨0⟩, [], .array .int, none, [], none⟩,
    ⟨"g", .user (.ofEnds 4 9), ⟨0⟩, [], .void, none, [], none⟩]
  vars := #[⟨"v", .dummy, .bool, .localVar ⟨0⟩⟩]
  exprs := #[⟨.dummy, .null, .null⟩]

set_option maxRecDepth 4096 in
theorem canonical_respelled : parse respelled = some spelled ∧ spelled.toJson.depth ≤ maxNesting ∧
    canonical? respelled = some spelled.render ∧ parse spelled.render = some spelled ∧
      canonical? spelled.render = some spelled.render := by
  have hread : parse respelled = some spelled := by
    have htext : respelled.toList = _ := String.toList_ofList
    rw [parse, Json.parse, Json.tokens, htext]
    decide +kernel
  exact ⟨hread, canonical_of_parse hread⟩

end Program

end MipsBackend
