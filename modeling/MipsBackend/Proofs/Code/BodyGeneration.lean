import MipsBackend.Proofs.Code.Generation

/-!
# Bodies do not fail

The code of a body starts with nothing pushed.  Its statements leave the values of the outermost
block on the stack, the result comes on top, and the epilogue addresses the activation as a whole.
What `Body.WellFormed` promises of sizes is enough for all three.

`Program.WellFormed.exists_entryCode` and `Program.WellFormed.exists_methodCode` say that the code
of every body can be generated against a layout that has an entry for whatever code may refer to.
-/

namespace MipsBackend

open Gen

variable {p : Program} {l : Layout} {f : Frame} {top : Int} {scope declared : List VarId}
  {nodes : List Node}

/-! ## What a body starts from -/

/-- A frame with nothing pushed is ready for a body. -/
theorem Frame.admits_empty (hvars : ∀ x ∈ scope, Addressable p l [] top x)
    (hdeclared : declared.Nodup) (hnodes : nodes.Nodup) :
    Frame.empty.Admits p l top [] scope declared nodes where
  vars := hvars
  exits _ hloop := absurd hloop List.not_mem_nil
  fresh _ _ := rfl
  outside _ hloop := absurd hloop List.not_mem_nil
  declared_nodup := hdeclared
  nodes_nodup := hnodes

theorem Program.exists_decl_of_mem_globals {x : VarId} (h : x ∈ p.globals) :
    ∃ decl, p.varAt x = .ok decl ∧ ∀ init, decl.kind ≠ .localVar init := by
  rw [globals, List.mem_filter, List.mem_map] at h
  obtain ⟨⟨i, hi, hid⟩, hlocal⟩ := h
  have hlt : x.toNat < p.vars.size := by
    have hle : x.toNat ≤ i := by
      rw [← hid, NodeId.toNat, NodeId.ofNat]
      exact (UInt32.toNat_ofNat' ▸ Nat.mod_le _ _)
    exact Nat.lt_of_le_of_lt hle (List.mem_range.1 hi)
  have hdecl : p.varAt x = .ok p.vars[x.toNat] :=
    lookup_eq_ok_iff.2 (Array.getElem?_eq_getElem hlt)
  refine ⟨_, hdecl, fun init hkind => ?_⟩
  rw [Program.isLocal_iff.2 ⟨_, init, hdecl, hkind⟩] at hlocal
  exact absurd hlocal Bool.false_ne_true

theorem Layout.Covers.addressable (covers : l.Covers p) {x : VarId} (hglobal : x ∈ p.globals)
    (hreach : Offset.Fits (top + p.varReach x)) {locals : List (VarId × Int)} :
    Addressable p l locals top x := by
  obtain ⟨decl, hdecl, hlocal⟩ := Program.exists_decl_of_mem_globals hglobal
  have hkind : p.kindOf x = some decl.kind := by
    rw [Program.kindOf, hdecl]
  cases hcase : decl.kind with
  | instVar c =>
    obtain ⟨offset, hoffset⟩ := covers.instVar (hcase ▸ hkind)
    exact .instVar hdecl hcase hoffset
  | formal m =>
    obtain ⟨offset, hoffset, hlow, hhigh⟩ := covers.formal (hcase ▸ hkind)
    have hsmall := hreach.2
    exact .formal hdecl hcase hoffset (by omega) (by omega)
  | localVar init => exact absurd hcase (hlocal init)

/-- The epilogue can be generated if all of the activation can be addressed. -/
theorem exists_epilogue {receiverOffset height : Int} (ty : Ty) (hreceiver : 0 ≤ receiverOffset)
    (hheight : 0 ≤ height) (hfits : receiverOffset + wordSize + height < 2 ^ 31) :
    ∃ leave, epilogue receiverOffset height ty = .ok leave := by
  have hwidth : ty.stackBytes ≤ 2 * wordSize := by
    cases ty <;> simp [Ty.stackBytes, Ty.words, wordSize]
  have hnonneg := ty.stackBytes_nonneg
  have hchecked : ∀ {op : ArithmeticOp} {n : Int}, -(2 * wordSize) ≤ n →
      n ≤ receiverOffset + wordSize + height → Offset.checked op n = .ok n := by
    intro op n hlow hhigh
    simp only [wordSize] at hlow hhigh hfits
    exact Offset.checked_of_fits (by constructor <;> omega)
  have hword := wordSize_nonneg
  have hresult : ∃ result, storeResult ty (receiverOffset + height) = .ok result := by
    unfold storeResult
    split
    · exact ⟨_, rfl⟩
    · split
      · exact exists_bind_eq_ok_iff.2 ⟨_, hchecked (by omega) (by omega), exists_pure_eq_ok _⟩
      · exact ⟨_, rfl⟩
  obtain ⟨result, hresult⟩ := hresult
  unfold epilogue
  refine exists_bind_eq_ok_iff.2 ⟨_, hchecked (by omega) (by omega), ?_⟩
  refine exists_bind_eq_ok_iff.2 ⟨result, hresult, ?_⟩
  refine exists_bind_eq_ok_iff.2 ⟨_, hchecked (by omega) (by omega), ?_⟩
  refine exists_bind_eq_ok_iff.2 ⟨_, hchecked (by omega) (by omega), ?_⟩
  exact exists_bind_eq_ok_iff.2 ⟨_, hchecked (by omega) (by omega), exists_pure_eq_ok _⟩

namespace Body

variable {b : Body}

theorem peakAll_le_peak (p : Program) (b : Body) : StmtTree.peakAll (b.stmts p) ≤ b.peak p :=
  Int.le_max_left _ _

theorem WellFormed.peak_small (h : b.WellFormed p) : b.peak p < 2 ^ 31 :=
  h.small.1.2

/-- With nothing pushed there is room for the statements of a body. -/
theorem WellFormed.hasRoom (h : b.WellFormed p) :
    Frame.empty.HasRoom (StmtTree.peakAll (b.stmts p)) (b.peak p) := by
  refine ⟨Int.le_refl 0, ?_, h.peak_small⟩
  change 0 + StmtTree.peakAll (b.stmts p) ≤ b.peak p
  rw [Int.zero_add]
  exact peakAll_le_peak p b

section Code

variable (wf : p.WellFormed) (covers : l.Covers p) (h : b.WellFormed p)
include wf covers h

/-- The statements of a body can be generated, and then its result can be. -/
theorem WellFormed.succeeds_codeAll :
    Succeeds (StmtTree.codeAll p l (b.stmts p)) .empty fun _ f =>
      f.height = StmtTree.leftBytesAll (b.stmts p) ∧
        ∀ result, b.result? p = some result →
          ∀ x ∈ result.reads, Addressable p l f.locals (b.peak p) x := by
  have htyped := h.typed
  have hresolved := h.resolved
  have hscoped := h.inScope
  rw [isWordTyped, Bool.and_eq_true] at htyped
  rw [isResolved, Bool.and_eq_true] at hresolved
  rw [isScoped, Bool.and_eq_true] at hscoped
  -- Only what the body names counts, and all of that can be addressed.
  let named := p.globals.filter (· ∈ b.reads p)
  have hnamed : ∀ x ∈ b.reads p, x ∈ p.globals → x ∈ named := by
    intro x hx hglobal
    exact List.mem_filter.2 ⟨hglobal, by simpa using hx⟩
  have hvars : ∀ x ∈ named, Addressable p l [] (b.peak p) x := by
    intro x hx
    obtain ⟨hglobal, hread⟩ := List.mem_filter.1 hx
    exact covers.addressable hglobal (h.small.2.2 x (by simpa using hread))
  have hstmts : StmtTree.isScopedAll [] named (b.stmts p) :=
    StmtTree.isScopedAll_of_imp hscoped.1 fun x hx => hnamed x (List.mem_append_left _ hx)
  have hall : ∀ s ∈ b.stmts p, (s ()).CanGenerate p l (b.peak p) := fun s hs =>
    StmtTree.canGenerate wf.tree wf.methods covers (StmtTree.isWordTypedAll_iff.1 htyped.1 s hs)
      (StmtTree.isResolvedAll_iff.1 hresolved.1 s hs)
  have hadmits := Frame.admits_empty hvars h.declared_nodup
    (List.nodup_append.1 h.nodes_nodup).1
  refine (StmtTree.succeeds_codeAll hall hstmts hadmits h.hasRoom).mono ?_
  rintro code f ⟨hheight, hafter⟩
  refine ⟨hheight.trans (Int.zero_add _), ?_⟩
  intro result hresult x hx
  rw [hresult, Option.all_some] at hscoped
  refine hafter x (StmtTree.scopeAfterAll_of_imp (hnamed x ?_) (ExprTree.reads_subset hscoped.2 hx))
  rw [reads, hresult]
  exact List.mem_append_right _ hx

/-- The result of a body can be generated where its statements end. -/
theorem WellFormed.succeeds_result {result : ExprTree} (hresult : b.result? p = some result)
    (hheight : f.height = StmtTree.leftBytesAll (b.stmts p))
    (hvars : ∀ x ∈ result.reads, Addressable p l f.locals (b.peak p) x) :
    Succeeds (result.code p l) f fun _ f' => f'.height = b.leftBytes p := by
  have htyped := h.typed
  have hresolved := h.resolved
  simp only [isWordTyped, hresult, Option.all_some, Bool.and_eq_true] at htyped
  simp only [isResolved, hresult, Option.all_some, Bool.and_eq_true] at hresolved
  have hbelow : StmtTree.leftBytesAll (b.stmts p) + result.peak ≤ b.peak p := by
    rw [peak, hresult]
    exact Int.le_max_right _ _
  have hleft := StmtTree.leftBytesAll_nonneg (b.stmts p)
  have hroom : f.HasRoom result.peak (b.peak p) := ⟨by omega, by omega, h.peak_small⟩
  have hcode := ExprTree.canGenerate wf.tree wf.methods covers htyped.2.1 hresolved.2 f hvars hroom
  refine hcode.mono ?_
  intro code f' hf'
  rw [hf', leftBytes, hresult, ← hheight]
  rfl

end Code

end Body

theorem Program.exists_stmtAt {id : StmtId} (h : (p.stmtTree id).isWordTyped p) :
    ∃ s, p.stmtAt id = .ok s := by
  cases hstmt : p.stmtAt id with
  | ok s => exact ⟨s, rfl⟩
  | error fault =>
    unfold stmtTree unfoldStmt at h
    rw [hstmt] at h
    exact absurd h Bool.false_ne_true

theorem MethodDecl.succeeds_resultCode {decl : MethodDecl} {post : Frame → Prop}
    (hresult : decl.result.isSome = !decl.isVoid) (hnone : decl.result = none → post f)
    (hsome : ∀ r, decl.result = some r →
      Succeeds ((p.exprTree r).code p l) f fun _ f' => post f') :
    Succeeds (decl.resultCode p l) f fun _ f' => post f' := by
  unfold resultCode
  cases hcase : decl.result with
  | none =>
    have hvoid : decl.isVoid = true := by simpa [hcase] using hresult
    rw [hvoid]
    exact succeeds_pure_iff.2 (hnone hcase)
  | some r =>
    have hvoid : decl.isVoid = false := by simpa [hcase] using hresult
    rw [hvoid]
    refine succeeds_bind_iff.2 ((hsome r hcase).mono ?_)
    intro code f' hpost
    exact succeeds_pure_iff.2 hpost

namespace Program.WellFormed

variable (wf : p.WellFormed) (covers : l.Covers p)
include wf covers

/-- The entry point can be generated. -/
theorem exists_entryCode : ∃ code, p.entryCode l = .ok code := by
  unfold entryCode
  cases hmain : p.main with
  | none => exact exists_pure_eq_ok _
  | some main =>
    have hstmts : Body.entry.stmts p = [fun _ => p.stmtTree main] := by
      rw [Body.stmts, hmain]
      rfl
    have hall := wf.entry.succeeds_codeAll wf covers
    have hpeak := Body.peakAll_le_peak p .entry
    have htyped := wf.entry.typed
    rw [Body.isWordTyped, Bool.and_eq_true, StmtTree.isWordTypedAll_iff] at htyped
    rw [hstmts] at hall hpeak htyped
    obtain ⟨stmt, hstmt⟩ := exists_stmtAt (htyped.1 _ List.mem_cons_self)
    have hcode : Succeeds ((p.stmtTree main).code p l) .empty fun _ f =>
        Frame.empty.height ≤ f.height ∧ f.height ≤ Body.entry.peak p := by
      rw [StmtTree.codeAll] at hall
      refine (succeeds_bind_iff.1 hall).mono ?_
      intro code f hrest
      rw [StmtTree.codeAll, succeeds_bind_iff, succeeds_pure_iff, succeeds_pure_iff] at hrest
      rw [hrest.1]
      exact ⟨StmtTree.leftBytesAll_nonneg _,
        Int.le_trans (StmtTree.leftBytesAll_le_peakAll _) hpeak⟩
    have hscope : Succeeds ((p.stmtTree main).scopedCode p l) .empty fun _ _ => True :=
      succeeds_inScope hcode (Int.le_refl 0) wf.entry.peak_small
    obtain ⟨code, f, hrun, _⟩ := hscope
    refine exists_bind_eq_ok_iff.2 ⟨stmt, hstmt, exists_bind_eq_ok_iff.2 ⟨stmt.span, rfl, ?_⟩⟩
    refine exists_bind_eq_ok_iff.2 ⟨(code, f), hrun, exists_bind_eq_ok_iff.2 ⟨code, rfl, ?_⟩⟩
    exact exists_pure_eq_ok _

/-- The methods of the program can be generated. -/
theorem exists_methodCode {m : MethodId} {decl : MethodDecl} (hdecl : p.methodAt m = .ok decl)
    (huser : decl.origin.isUser) : ∃ code, p.methodCode l m = .ok code := by
  have hbody := wf.bodies m decl hdecl huser
  have hall := hbody.succeeds_codeAll wf covers
  have hresult := wf.results m decl hdecl
  rw [huser, Bool.true_and] at hresult
  have hstmts : (Body.method m).stmts p = decl.body.map fun s _ => p.stmtTree s := by
    rw [Body.stmts, hdecl]
  have hresult? : (Body.method m).result? p = decl.result.map p.exprTree := by
    rw [Body.result?, hdecl]
  have hbase : (Body.method m).base p = p.receiverOffset decl + wordSize := by
    rw [Body.base, hdecl]
  have hgenerate : Succeeds (do
      let body ← StmtTree.codeAll p l (decl.body.map fun s _ => p.stmtTree s)
      return (body, ← decl.resultCode p l) : Gen (Code × Code × Span)) .empty fun _ f =>
      f.height = (Body.method m).leftBytes p := by
    rw [← hstmts]
    refine succeeds_bind_iff.2 (hall.mono ?_)
    rintro code f ⟨hheight, hvars⟩
    have hvalue : Succeeds (decl.resultCode p l) f fun _ f' =>
        f'.height = (Body.method m).leftBytes p := by
      refine MethodDecl.succeeds_resultCode hresult (fun hnone => ?_) fun r hr => ?_
      · rw [hheight, Body.leftBytes, hresult?, hnone]
        exact (Int.add_zero _).symm
      · have hsome : (Body.method m).result? p = some (p.exprTree r) := by
          rw [hresult?, hr, Option.map_some]
        exact hbody.succeeds_result wf covers hsome hheight (hvars _ hsome)
    exact succeeds_bind_iff.2 (hvalue.mono fun _ _ hleft => succeeds_pure_iff.2 hleft)
  obtain ⟨⟨body, result, span⟩, f, hrun, hleft⟩ := hgenerate
  obtain ⟨label, hlabel⟩ := wf.methods.exists_label hdecl
  obtain ⟨ml, _, hml, hreceiver, _⟩ := covers.methodLayout hdecl
  have hfits := hbody.small.2.1.2
  have hlow := Body.leftBytes_nonneg p (.method m)
  have hnonneg : 0 ≤ ml.receiverOffset := hreceiver ▸ p.receiverOffset_nonneg decl
  have hsmall : ml.receiverOffset + wordSize + f.height < 2 ^ 31 := by omega
  obtain ⟨leave, hleave⟩ := exists_epilogue decl.returnType hnonneg (hleft ▸ hlow) hsmall
  have hruntime : decl.origin.isRuntime = false := by
    rw [MethodOrigin.isRuntime, huser]
    rfl
  unfold methodCode
  refine exists_bind_eq_ok_iff.2 ⟨decl, hdecl, ?_⟩
  simp only [hruntime, Bool.false_eq_true, if_false]
  refine exists_bind_eq_ok_iff.2 ⟨label, hlabel, exists_bind_eq_ok_iff.2 ⟨ml, hml, ?_⟩⟩
  refine exists_bind_eq_ok_iff.2 ⟨((body, result, span), f), hrun, ?_⟩
  exact exists_bind_eq_ok_iff.2 ⟨leave, hleave, exists_pure_eq_ok _⟩

end Program.WellFormed

end MipsBackend
